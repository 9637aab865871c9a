import JunctionBox.Inference.Traversal
import Mathlib.Tactic.Linarith

/-!
# What the two passes compute

In a junction tree with proper separators collecting evidence absorbs all
cliques into the root, which then holds the sum over all other variables of the
product of the initial tables (`collectEvidence_root`).

Distributing evidence answers the messages of the root's neighbours and no
others.  So the tree is calibrated for all tables exactly when it is a star
around the root (`calibrates_iff`).
-/

namespace JunctionBox

open Hypertree Propagation SumOut

namespace ElimTree

variable {o : VariableOrdering} {t : ElimTree o}

/-- The variables of the cliques. -/
def allVbls (t : ElimTree o) : Finset ℕ := t.graph.labels.toFinset.biUnion t.clique

theorem HasRunningIntersection.isJunctionTree (h : t.HasRunningIntersection) (htree : t.IsTree) :
    IsJunctionTree {l | l ∈ t.graph.labels} t.clique t.graph.skeleton :=
  ⟨htree.isTreeOn, h.cliques⟩

theorem Along.adj (htree : t.IsTree) {m : Message CString Edge} (hm : t.Along m) :
    t.graph.skeleton.Adj m.sender m.receiver := by
  refine ⟨fun heq => ?_, m.sep, hm.mem, hm.ends⟩
  have hends := hm.ends
  rw [heq] at hends
  rcases Sym2.eq_iff.mp hends with ⟨hsrc, hsink⟩ | ⟨hsrc, hsink⟩ <;>
    exact htree.loopless _ hm.mem (hsrc.trans hsink.symm)

/-- Proper separators of a junction tree are the intersections of their cliques. -/
theorem HasRunningIntersection.separatorOf_eq (h : t.HasRunningIntersection) (htree : t.IsTree)
    (hproper : t.ProperSeparators) {m : Message CString Edge} (hm : t.Along m) :
    t.separatorOf m.sep = t.clique m.sender ∩ t.clique m.receiver := by
  apply Finset.Subset.antisymm
  · exact Finset.subset_inter (hproper.sender hm).subset (hproper.receiver hm).subset
  · have hadj := hm.adj htree
    apply h.separators (SimpleGraph.Walk.cons hadj SimpleGraph.Walk.nil) ?_ m.sep hm.mem
    · rw [hm.ends]
      simp
    · simpa using hadj.ne

end ElimTree

namespace Potentials

variable {o : VariableOrdering} {K : Type} [Field K] [DecidableEq K] {t : ElimTree o}
variable {root : CString}

/-- Tables of the right size on the cliques, and ones on the separators. -/
structure Ready (t : ElimTree o) (this : Potentials o K) : Prop where
  shaped : Shaped t this
  sized : ∀ l ∈ t.graph.labels, (this.clique l).Sized
  unit : ∀ e ∈ t.graph.edgeList, (this.sep e.srcSink).Represents fun _ => 1

/-- The factors in the tables of a ready state. -/
def start (t : ElimTree o) (this : Potentials o K) : Beliefs CString Edge ℕ ℕ K where
  clique l := if l ∈ t.graph.labels then (this.clique l).val else fun _ => 1
  sep _ _ := 1

omit [DecidableEq K] in
theorem start_clique {this : Potentials o K} {l : CString} (hl : l ∈ t.graph.labels) :
    (start t this).clique l = (this.clique l).val := if_pos hl

omit [DecidableEq K] in
/-- The factor of a table that is there, or else the factor one. -/
theorem dependsOn_factor {P : Prop} [Decidable P] {p : Pot o K} {vbls : VariableSet o}
    (h : P → p.vbls = vbls) :
    DependsOn (if P then p.val else fun _ => 1) (vbls.vars : Set ℕ) := by
  by_cases hP : P
  · rw [if_pos hP, ← h hP]
    exact Pot.dependsOn_val p
  · rw [if_neg hP]
    exact fun x y _ => rfl

omit [DecidableEq K] in
theorem Ready.represents {this : Potentials o K} (h : Ready t this) :
    Represents t this (start t this) := by
  refine ⟨h.shaped, ⟨fun l => dependsOn_factor (h.shaped.clique l), fun e x y _ => rfl⟩,
    fun l hl => ?_, h.unit⟩
  rw [start_clique hl]
  exact (h.sized l hl).represents_val

omit [DecidableEq K] in
/-- A state whose separators hold ones is ready. -/
theorem Represents.ready {this : Potentials o K} {b : Beliefs CString Edge ℕ ℕ K}
    (h : Represents t this b) (hone : b.sep = fun _ _ => 1) : Ready t this := by
  refine ⟨h.shaped, fun l hl => (h.clique l hl).sized, fun e he => ?_⟩
  have hsep := h.sep e he
  rwa [hone] at hsep

/-! ## Collecting -/

/-- What collecting does, in a rooted junction tree: `ms` is the sequence of messages. -/
structure Collects (R : Rooting {l | l ∈ t.graph.labels} t.graph.skeleton root)
    (ms : List (Message CString Edge)) : Prop where
  run : ∀ {this : Potentials o K} {b : Beliefs CString Edge ℕ ℕ K}, Represents t this b →
    ∃ s, this.collectEvidence t = some s ∧
      Represents t s (passAll o.dom t.clique t.separatorOf ms b)
  upward : ∀ m ∈ ms, Upward R Edge.ends m ∧ t.Along m
  absorbs : Absorbs t.clique t.separatorOf t.graph.labels.toFinset ms {root}
  senders : ∀ l, l ∈ ms.map Message.sender ↔ l ∈ t.graph.labels ∧ l ≠ root

theorem exists_collects (htree : t.IsTree) (hri : t.HasRunningIntersection)
    (hproper : t.ProperSeparators) (hroot : t.graph.labels.head? = some root)
    (R : Rooting {l | l ∈ t.graph.labels} t.graph.skeleton root) :
    ∃ ms, Collects (K := K) R ms := by
  obtain ⟨ms, hrun, horder, hup⟩ := collectEvidence_eq htree hroot R
  have hpair := horder.pairwise
  rw [List.pairwise_append] at hpair
  have hmem : ∀ l, l ∈ ms.map Message.sender ∨ l = root ↔ l ∈ t.graph.labels := by
    intro l
    have hiff := horder.mem_iff l
    rw [List.mem_append, List.mem_singleton] at hiff
    rw [hiff]
    exact ⟨Rooting.Below.mem, fun hl => R.below_root htree.isTreeOn hl⟩
  have hnot : root ∉ ms.map Message.sender := by
    intro hold
    obtain ⟨m, hm, heq⟩ := List.mem_map.mp hold
    exact (hup m hm).1.ne_root heq
  refine ⟨ms, fun hrep => ?_, hup, ?_, fun l => ?_⟩
  · obtain ⟨s, hs, hrep'⟩ := hrep.passMessages hproper fun m hm => (hup m hm).2
    refine ⟨s, ?_, hrep'⟩
    unfold collectEvidence
    rw [hrun]
    exact hs
  · apply absorbs_of_upward (hri.isJunctionTree htree) (fun m hm => (hup m hm).1)
      (fun m hm => hri.separatorOf_eq htree hproper (hup m hm).2) hpair.1
    · intro k
      rw [List.mem_toFinset, ← hmem, or_comm]
    · intro m hm
      exact List.mem_toFinset.mpr (hup m hm).2.receiver_mem
  · rw [← hmem]
    constructor
    · intro hl
      exact ⟨Or.inl hl, fun heq => hnot (heq ▸ hl)⟩
    · rintro ⟨hl, hne⟩
      exact hl.resolve_right hne

/-- After `BNet_CollectEvidence` the root holds, at every assignment of its variables, the
sum over the other variables of the product of the initial clique tables. -/
theorem collectEvidence_root (htree : t.IsTree) (hri : t.HasRunningIntersection)
    (hproper : t.ProperSeparators)
    (hroot : (VertexOrdering.default t.graph).vertices.head? = some root)
    {this : Potentials o K} (hready : Ready t this) :
    ∃ s, this.collectEvidence t = some s ∧ ∀ x, (s.clique root).vbls.InRange x →
      (s.clique root).entry x = some (sumOut o.dom (t.allVbls \ t.clique root)
        (fun z => (t.graph.labels.map fun l => (this.clique l).val z).prod) x) := by
  rw [VertexOrdering.vertices_default] at hroot
  have hmem : root ∈ t.graph.labels := List.mem_of_mem_head? hroot
  obtain ⟨R⟩ := htree.isTreeOn.exists_rooting hmem
  obtain ⟨ms, hms⟩ := exists_collects (K := K) htree hri hproper hroot R
  obtain ⟨s, hrun, hrep⟩ := hms.run hready.represents
  refine ⟨s, hrun, fun x hx => ?_⟩
  rw [(hrep.clique root hmem).entry_eq x hx,
    hms.absorbs.clique_root hready.represents.isScoped fun m _ => rfl]
  unfold ElimTree.allVbls
  congr 2
  funext z
  rw [List.prod_toFinset _ t.graph.labels_nodup]
  exact congrArg List.prod (List.map_congr_left fun l hl => by rw [start_clique hl])

/-! ## Distributing -/

/-- Every separator equals the sum-margins of both its cliques, entry by entry. -/
def Calibrated (t : ElimTree o) (this : Potentials o K) : Prop :=
  ∀ e ∈ t.graph.edgeList, ∀ v, AtEnd e v → ∀ x, (this.sep e.srcSink).vbls.InRange x →
    (this.sep e.srcSink).entry x = some
      (sumOut o.dom (t.clique v \ t.separatorOf e) (this.clique v).val x)

theorem AtEnd.mem {e : Edge} (he : e ∈ t.graph.edgeList) {v : CString} (hv : AtEnd e v) :
    v ∈ t.graph.labels := by
  rcases hv with rfl | rfl
  · exact (Graph.ends_mem he).1
  · exact (Graph.ends_mem he).2

omit [DecidableEq K] in
/-- Calibration in terms of the factors. -/
theorem Represents.calibrated_iff {this : Potentials o K} {b : Beliefs CString Edge ℕ ℕ K}
    (h : Represents t this b) :
    Calibrated t this ↔ ∀ e ∈ t.graph.edgeList, ∀ v, AtEnd e v → ∀ x,
      (∀ i ∈ t.separatorOf e, x i ∈ o.dom i) →
      b.sep e x = sumOut o.dom (t.clique v \ t.separatorOf e) (b.clique v) x := by
  have hpoint : ∀ e ∈ t.graph.edgeList, ∀ v, AtEnd e v → ∀ x,
      (∀ i ∈ t.separatorOf e, x i ∈ o.dom i) →
      ((this.sep e.srcSink).entry x = some
        (sumOut o.dom (t.clique v \ t.separatorOf e) (this.clique v).val x) ↔
      b.sep e x = sumOut o.dom (t.clique v \ t.separatorOf e) (b.clique v) x) := by
    intro e he v hv x hx
    have hvmem := hv.mem he
    have hrange : (this.sep e.srcSink).vbls.InRange x := by
      rw [h.shaped.sep e he]
      exact hx
    have hval : sumOut o.dom (t.clique v \ t.separatorOf e) (this.clique v).val x =
        sumOut o.dom (t.clique v \ t.separatorOf e) (b.clique v) x := by
      apply sumOut_congr
      intro z hz
      apply (h.clique v hvmem).val_eq
      rw [h.shaped.clique v hvmem]
      intro i hi
      rw [mem_extensions] at hz
      by_cases hsep : i ∈ t.separatorOf e
      · rw [hz.2 i fun hmem => (Finset.mem_sdiff.mp hmem).2 hsep]
        exact hx i hsep
      · exact hz.1 i (Finset.mem_sdiff.mpr ⟨hi, hsep⟩)
    rw [(h.sep e he).entry_eq x hrange, Option.some.injEq, hval]
  have hrange : ∀ e ∈ t.graph.edgeList, ∀ x, (this.sep e.srcSink).vbls.InRange x ↔
      ∀ i ∈ t.separatorOf e, x i ∈ o.dom i := fun e he x => by
    rw [h.shaped.sep e he]
    exact Iff.rfl
  refine forall₄_congr fun e he v hv => forall_congr' fun x => ?_
  rw [hrange e he]
  exact forall_congr' fun hx => hpoint e he v hv x hx

/-- Every clique is the root or one of its neighbours. -/
def IsStar (t : ElimTree o) (root : CString) : Prop :=
  ∀ l ∈ t.graph.labels, l = root ∨ t.graph.skeleton.Adj root l

section Star

variable (R : Rooting {l | l ∈ t.graph.labels} t.graph.skeleton root)

/-- The messages that `BNet_DistributeEvidence` answers: those of the root's neighbours. -/
def inward (g : Graph) (v : CString) : List (Message CString Edge) :=
  (g.neighbors v).map fun n => ⟨v, n.1, n.2⟩

theorem map_reply_inward (g : Graph) (v : CString) :
    (inward g v).map Message.reply = outward g v := by
  unfold inward outward
  rw [List.map_map]
  rfl

theorem mem_inward {m : Message CString Edge} (htree : t.IsTree) (hm : m ∈ inward t.graph root) :
    t.Along m ∧ m.receiver = root ∧ t.graph.skeleton.Adj root m.sender := by
  obtain ⟨n, hn, rfl⟩ := List.mem_map.mp hm
  obtain ⟨he, hends⟩ := Graph.mem_neighbors_ends hn
  exact ⟨⟨he, hends⟩, rfl, htree.adj_of_mem_neighbors hn⟩

variable {R}

theorem parent_of_adj_root {l : CString} (hadj : t.graph.skeleton.Adj root l) :
    l ≠ root ∧ R.parent l = root := by
  rcases R.parent_of_adj hadj with h | ⟨hne, -⟩
  · exact h
  · exact absurd rfl hne

/-- The messages answered have been collected. -/
theorem Collects.mem_of_mem_inward {ms : List (Message CString Edge)}
    (h : Collects (K := K) R ms) (htree : t.IsTree) {m : Message CString Edge}
    (hm : m ∈ inward t.graph root) : m ∈ ms := by
  obtain ⟨halong, hreceiver, hadj⟩ := mem_inward htree hm
  obtain ⟨hne, hparent⟩ := parent_of_adj_root (R := R) hadj
  obtain ⟨m', hm', hsender⟩ := List.mem_map.mp ((h.senders m.sender).mpr ⟨halong.sender_mem, hne⟩)
  obtain ⟨hup, halong'⟩ := h.upward m' hm'
  have hreceiver' : m'.receiver = m.receiver := by
    rw [hup.receiver, hsender, hparent, hreceiver]
  have hsep : m'.sep = m.sep := by
    apply htree.simple _ halong'.mem _ halong.mem
    rw [halong'.ends, halong.ends, hsender, hreceiver']
  have heq : m' = m := by
    cases m
    cases m'
    simp only at hsender hreceiver' hsep
    rw [hsender, hreceiver', hsep]
  exact heq ▸ hm'

theorem nodup_inward (htree : t.IsTree) (root : CString) :
    ((inward t.graph root).map Message.sender).Nodup ∧
      ((inward t.graph root).map Message.sep).Nodup := by
  have hfst := htree.nodup_neighbors root
  unfold inward
  rw [List.map_map, List.map_map]
  refine ⟨hfst, List.Nodup.map_on ?_ hfst.of_map⟩
  rintro ⟨n, e⟩ hn ⟨n', e'⟩ hn' (rfl : e = e')
  have hends := (Graph.mem_neighbors_ends hn).2.symm.trans (Graph.mem_neighbors_ends hn').2
  rcases Sym2.eq_iff.mp hends with ⟨rfl, -⟩ | ⟨rfl, rfl⟩ <;> rfl

/-- The belief state after both passes. -/
theorem Represents.distribute (htree : t.IsTree) (hproper : t.ProperSeparators)
    (hroot : t.graph.labels.head? = some root) {this : Potentials o K}
    {b : Beliefs CString Edge ℕ ℕ K} (h : Represents t this b) :
    ∃ s, this.distributeEvidence t = some s ∧
      Represents t s (passAll o.dom t.clique t.separatorOf
        ((inward t.graph root).map Message.reply) b) := by
  have halong : ∀ m ∈ (inward t.graph root).map Message.reply, t.Along m := by
    intro m hm
    obtain ⟨m', hm', rfl⟩ := List.mem_map.mp hm
    exact (mem_inward htree hm').1.reply
  obtain ⟨s, hrun, hrep⟩ := h.passMessages hproper halong
  refine ⟨s, ?_, hrep⟩
  unfold distributeEvidence
  rw [distributeEvidence_eq htree hroot, ← map_reply_inward]
  exact hrun

omit [DecidableEq K] in
/-- The answered neighbours hold what a single answer would leave them. -/
theorem passAll_reply_inward (htree : t.IsTree) (b : Beliefs CString Edge ℕ ℕ K)
    {m : Message CString Edge} (hm : m ∈ inward t.graph root) :
    let b' := passAll o.dom t.clique t.separatorOf ((inward t.graph root).map Message.reply) b
    b'.clique m.sender = (pass o.dom t.clique t.separatorOf m.reply b).clique m.sender ∧
      b'.sep m.sep = (pass o.dom t.clique t.separatorOf m.reply b).sep m.sep := by
  obtain ⟨hsenders, hseps⟩ := nodup_inward htree root
  have hroot : ∀ m ∈ inward t.graph root, m.receiver = root ∧ m.sender ≠ root := by
    intro m hm
    obtain ⟨-, hreceiver, hadj⟩ := mem_inward htree hm
    exact ⟨hreceiver, hadj.ne'⟩
  exact passAll_reply hroot hsenders hseps hm

omit [DecidableEq K] in
/-- Nobody else receives anything. -/
theorem clique_of_not_adj (htree : t.IsTree) (b : Beliefs CString Edge ℕ ℕ K) {l : CString}
    (hl : ¬t.graph.skeleton.Adj root l) :
    (passAll o.dom t.clique t.separatorOf ((inward t.graph root).map Message.reply) b).clique l =
      b.clique l := by
  apply passAll_clique_of_forall_ne
  intro m hm heq
  obtain ⟨m', hm', rfl⟩ := List.mem_map.mp hm
  exact hl (heq ▸ (mem_inward htree hm').2.2)

omit [DecidableEq K] in
/-- Nobody answers over an edge away from the root. -/
theorem sep_of_notMem_ends (htree : t.IsTree) (b : Beliefs CString Edge ℕ ℕ K) {e : Edge}
    (hroot : root ∉ e.ends) :
    (passAll o.dom t.clique t.separatorOf ((inward t.graph root).map Message.reply) b).sep e =
      b.sep e := by
  apply passAll_sep_of_forall_ne
  rintro r hr rfl
  obtain ⟨m, hm, rfl⟩ := List.mem_map.mp hr
  obtain ⟨halong, hreceiver, -⟩ := mem_inward htree hm
  have hends : m.reply.sep.ends = s(m.sender, m.receiver) := halong.ends
  rw [hends, hreceiver] at hroot
  exact hroot (Sym2.mem_mk_right ..)

omit [DecidableEq K] in
/-- A factor on the root reaches all its neighbours. -/
theorem clique_scale_of_adj (htree : t.IsTree) (c : K) (b : Beliefs CString Edge ℕ ℕ K)
    {l : CString} (hadj : t.graph.skeleton.Adj root l) :
    (passAll o.dom t.clique t.separatorOf ((inward t.graph root).map Message.reply)
        (scale root c b)).clique l =
      fun x => c * (passAll o.dom t.clique t.separatorOf
        ((inward t.graph root).map Message.reply) b).clique l x := by
  obtain ⟨e, he⟩ := ElimTree.IsTree.exists_mem_neighbors hadj
  set m : Message CString Edge := ⟨root, l, e⟩ with hm
  have hinward : m ∈ inward t.graph root := List.mem_map.mpr ⟨_, he, rfl⟩
  have hscaled := (passAll_reply_inward htree (scale root c b) hinward).1
  have hplain := (passAll_reply_inward htree b hinward).1
  rw [show m.sender = l from rfl] at hscaled hplain
  rw [hscaled, hplain]
  have hne : m.reply.receiver ≠ m.reply.sender := hadj.ne'
  exact pass_scale_self_receiver hne c b

/-- In a star every edge is at the root. -/
theorem IsStar.exists_mem_inward (hstar : IsStar t root) (htree : t.IsTree)
    (R : Rooting {l | l ∈ t.graph.labels} t.graph.skeleton root) {e : Edge}
    (he : e ∈ t.graph.edgeList) : ∃ m ∈ inward t.graph root, m.sep = e := by
  have hadj : t.graph.skeleton.Adj e.src e.sink := ⟨htree.loopless e he, e, he, rfl⟩
  have hends := Graph.ends_mem he
  have hroot : e.src = root ∨ e.sink = root := by
    by_contra hnone
    rw [not_or] at hnone
    obtain ⟨-, hsrc⟩ := parent_of_adj_root (R := R) ((hstar _ hends.1).resolve_left hnone.1)
    obtain ⟨-, hsink⟩ := parent_of_adj_root (R := R) ((hstar _ hends.2).resolve_left hnone.2)
    rcases R.parent_of_adj hadj with ⟨-, hparent⟩ | ⟨-, hparent⟩
    · exact hnone.1 (hparent.symm.trans hsink)
    · exact hnone.2 (hparent.symm.trans hsrc)
  rcases hroot with hsrc | hsink
  · exact ⟨⟨root, e.sink, e⟩, List.mem_map.mpr ⟨(e.sink, e), Graph.mem_neighbors.mpr
      ⟨he, Or.inr ⟨hsrc, rfl⟩⟩, rfl⟩, rfl⟩
  · exact ⟨⟨root, e.src, e⟩, List.mem_map.mpr ⟨(e.src, e), Graph.mem_neighbors.mpr
      ⟨he, Or.inl ⟨hsink, rfl⟩⟩, rfl⟩, rfl⟩

/-- The belief state after collecting and distributing. -/
theorem Collects.passes {ms : List (Message CString Edge)} (h : Collects (K := K) R ms)
    (htree : t.IsTree) (hproper : t.ProperSeparators) (hroot : t.graph.labels.head? = some root)
    {this : Potentials o K} {b : Beliefs CString Edge ℕ ℕ K} (hrep : Represents t this b) :
    ∃ s₁ s₂, this.collectEvidence t = some s₁ ∧ s₁.distributeEvidence t = some s₂ ∧
      Represents t s₂ (passAll o.dom t.clique t.separatorOf
        ((inward t.graph root).map Message.reply) (passAll o.dom t.clique t.separatorOf ms b)) := by
  obtain ⟨s₁, hcollect, hrep₁⟩ := h.run hrep
  obtain ⟨s₂, hdistribute, hrep₂⟩ := hrep₁.distribute htree hproper hroot
  exact ⟨s₁, s₂, hcollect, hdistribute, hrep₂⟩

/-- **A star is calibrated.** -/
theorem Collects.calibrated {ms : List (Message CString Edge)} (h : Collects (K := K) R ms)
    (htree : t.IsTree) (hproper : t.ProperSeparators) (hstar : IsStar t root)
    {b : Beliefs CString Edge ℕ ℕ K} (hb : Scoped t.clique t.separatorOf b) {s : Potentials o K}
    (hrep : Represents t s (passAll o.dom t.clique t.separatorOf
      ((inward t.graph root).map Message.reply) (passAll o.dom t.clique t.separatorOf ms b))) :
    Calibrated t s := by
  rw [hrep.calibrated_iff]
  intro e he v hv x _
  obtain ⟨m, hm, rfl⟩ := hstar.exists_mem_inward htree R he
  obtain ⟨halong, hreceiver, hadj⟩ := mem_inward htree hm
  set b₁ := passAll o.dom t.clique t.separatorOf ms b with hb₁
  have hscoped : Scoped t.clique t.separatorOf b₁ :=
    hb.passAll fun m' hm' => (hproper.receiver (h.upward m' hm').2).subset
  have habsorbed : Propagation.Absorbed m b₁ o.dom t.clique t.separatorOf :=
    h.absorbs.absorbed (h.mem_of_mem_inward htree hm)
  obtain ⟨hsender, hreply⟩ := calibrated_of_reply hscoped (hreceiver ▸ hadj.ne') habsorbed
  obtain ⟨hclique, hsep⟩ := passAll_reply_inward htree b₁ hm
  have hrootclique := clique_of_not_adj htree b₁ (t.graph.skeleton.irrefl (v := root))
  have hends : v = m.sender ∨ v = root := by
    rw [← hreceiver]
    rcases hv with rfl | rfl <;>
      rcases Sym2.eq_iff.mp halong.ends with ⟨hsrc, hsink⟩ | ⟨hsrc, hsink⟩
    · exact Or.inl hsrc
    · exact Or.inr hsrc
    · exact Or.inr hsink
    · exact Or.inl hsink
  rw [hsep]
  rcases hends with heq | heq
  · rw [heq, hclique, hsender]
    rfl
  · have hother : (pass o.dom t.clique t.separatorOf m.reply b₁).clique root = b₁.clique root :=
      pass_clique_of_ne (m := m.reply) hadj.ne b₁
    rw [heq, hrootclique, hreply, marginal, show m.reply.sender = root from hreceiver, hother]
    rfl

/-! ## Deeper trees -/

/-- A tree that is no star has a clique two steps away from the root. -/
theorem exists_grandchild (R : Rooting {l | l ∈ t.graph.labels} t.graph.skeleton root)
    (htree : t.IsTree) (h : ¬IsStar t root) :
    ∃ w ∈ t.graph.labels, w ≠ root ∧ R.parent w ≠ root ∧ R.parent (R.parent w) = root := by
  unfold IsStar at h
  push Not at h
  obtain ⟨l, hl, hne, hadj⟩ := h
  -- go up from a clique that is not next to the root
  induction hdepth : R.depth l using Nat.strong_induction_on generalizing l with
  | _ d ih =>
      have hparent : R.parent l ≠ root := fun heq => hadj (heq ▸ (R.adj_parent hl hne).symm)
      have hmem := R.parent_mem htree.isTreeOn hl hne
      by_cases hgrand : R.parent (R.parent l) = root
      · exact ⟨l, hl, hne, hparent, hgrand⟩
      · apply ih (R.depth (R.parent l)) ?_ (R.parent l) hmem hparent ?_ rfl
        · have hstep := R.depth_parent hl hne
          omega
        · exact fun hadj' => hgrand (parent_of_adj_root hadj').2

section Ordered

variable [LinearOrder K] [IsStrictOrderedRing K]

/-- The state of ones. -/
def ones (t : ElimTree o) : Potentials o K := createAll (plain K) t (unset o K)

/-- The state of ones with twos on the clique `root`. -/
def twosAt (t : ElimTree o) (root : CString) : Potentials o K :=
  let vbls := (t.elimSet root).toVariableSet
  { ones t with
    clique := Function.update (ones t : Potentials o K).clique root
      (Pot.createTabular vbls (List.replicate vbls.getCardinality 2)) }

omit [LinearOrder K] [IsStrictOrderedRing K] in
theorem represents_ones (t : ElimTree o) : Represents t (ones t : Potentials o K) unity :=
  represents_createAll t _

omit [LinearOrder K] [IsStrictOrderedRing K] in
theorem represents_twosAt (t : ElimTree o) (root : CString) :
    Represents t (twosAt t root : Potentials o K) (scale root 2 unity) := by
  have h := represents_ones (K := K) t
  have htwos : (Pot.createTabular (t.elimSet root).toVariableSet (List.replicate
      (t.elimSet root).toVariableSet.getCardinality (2 : K))).Represents fun _ => 2 := by
    refine ⟨Pot.sized_createTabular (List.length_replicate ..), fun x hx => ?_⟩
    unfold Pot.entry Pot.createTabular
    exact List.getElem?_replicate_of_lt (VariableSet.index_lt hx)
  refine ⟨⟨?_, h.shaped.sep, h.shaped.margMemo, h.shaped.mulMemo⟩,
    ⟨fun k => ?_, fun e x y _ => rfl⟩, ?_, h.sep⟩
  · apply (Function.forall_update_iff (ones t : Potentials o K).clique fun k q =>
      k ∈ t.graph.labels → q.vbls = (t.elimSet k).toVariableSet).mpr
    exact ⟨fun _ => rfl, fun k _ => h.shaped.clique k⟩
  · by_cases hk : k = root
    · subst hk
      rw [scale_clique_self]
      exact fun x y _ => rfl
    · rw [scale_clique_of_ne hk]
      exact fun x y _ => rfl
  · apply (Function.forall_update_iff (ones t : Potentials o K).clique fun k q =>
      k ∈ t.graph.labels → q.Represents ((scale root 2 unity).clique k)).mpr
    refine ⟨fun _ => ?_, fun k hk => ?_⟩
    · rw [scale_clique_self]
      simp only [unity, mul_one]
      exact htwos
    · rw [scale_clique_of_ne hk]
      exact h.clique k

theorem complete_zero (hpos : o.Discrete) : o.Complete fun _ => 0 := by
  intro i hi
  rw [VariableOrdering.mem_dom]
  exact hpos _ (VariableOrdering.vbl_mem hi)

omit [DecidableEq K] in
theorem positive_unity : Positive o.dom t.clique (unity : Beliefs CString Edge ℕ ℕ K) :=
  ⟨fun _ _ _ => zero_lt_one, fun _ _ _ => zero_lt_one⟩

/-- In a deeper tree the two states cannot both end up calibrated: the twos reach the
children of the root, and do not get any further. -/
theorem Collects.not_calibrated (hpos : o.Discrete) {ms : List (Message CString Edge)}
    (h : Collects (K := K) R ms) (htree : t.IsTree) (hdeep : ¬IsStar t root)
    {s s' : Potentials o K}
    (hrep : Represents t s (passAll o.dom t.clique t.separatorOf
      ((inward t.graph root).map Message.reply)
      (passAll o.dom t.clique t.separatorOf ms unity)))
    (hrep' : Represents t s' (passAll o.dom t.clique t.separatorOf
      ((inward t.graph root).map Message.reply)
      (passAll o.dom t.clique t.separatorOf ms (scale root 2 unity))))
    (hcal : Calibrated t s) (hcal' : Calibrated t s') : False := by
  obtain ⟨w, hw, hwroot, hproot, hgrand⟩ := exists_grandchild R htree hdeep
  set p := R.parent w with hp
  set b := passAll o.dom t.clique t.separatorOf ms (unity : Beliefs CString Edge ℕ ℕ K) with hb
  rw [passAll_scale fun m hm => (h.upward m hm).1.ne_root, ← hb] at hrep'
  obtain ⟨-, e, he, hends⟩ := R.adj_parent hw hwroot
  have hpmem := R.parent_mem htree.isTreeOn hw hwroot
  have hpadj : t.graph.skeleton.Adj root p := by
    have hadj := (R.adj_parent hpmem hproot).symm
    rwa [hgrand] at hadj
  have hatEnd : AtEnd e p := by
    rcases Sym2.eq_iff.mp hends with ⟨-, hsink⟩ | ⟨hsrc, -⟩
    · exact Or.inr hsink.symm
    · exact Or.inl hsrc.symm
  -- the separator below `p` is not at the root, but `p` has heard from the root
  have haway : root ∉ e.ends := by
    rw [show e.ends = s(w, p) from hends, Sym2.mem_iff, not_or]
    exact ⟨hwroot.symm, hproot.symm⟩
  have hdouble := clique_scale_of_adj htree 2 b hpadj
  have hzero := complete_zero hpos
  have hdom : ∀ i ∈ t.separatorOf e, (fun _ => 0 : Assignment) i ∈ o.dom i := fun i hi =>
    hzero i (ElimSet.lt_size_of_mem_vars hi)
  have hone := (hrep.calibrated_iff.mp hcal) e he p hatEnd _ hdom
  have htwo := (hrep'.calibrated_iff.mp hcal') e he p hatEnd _ hdom
  rw [sep_of_notMem_ends htree _ haway] at hone htwo
  have hsum : sumOut o.dom (t.clique p \ t.separatorOf e) ((passAll o.dom t.clique t.separatorOf
      ((inward t.graph root).map Message.reply) (scale root 2 b)).clique p) (fun _ => 0) =
      2 * sumOut o.dom (t.clique p \ t.separatorOf e) ((passAll o.dom t.clique t.separatorOf
        ((inward t.graph root).map Message.reply) b).clique p) (fun _ => 0) := by
    unfold sumOut
    rw [hdouble, Finset.mul_sum]
  rw [hsum, ← hone, scale_sep] at htwo
  have hunity : Positive o.dom t.clique (unity : Beliefs CString Edge ℕ ℕ K) := positive_unity
  have hpositive : 0 < b.sep e fun _ => 0 :=
    (hunity.passAll ms).sep e _ (inDomain_of_complete t hzero)
  linarith

/-- The two passes calibrate the tree from every ready state of non-negative tables. -/
def CalibratesAll (K : Type) [Field K] [DecidableEq K] [LE K] (t : ElimTree o) : Prop :=
  ∀ this : Potentials o K, Ready t this →
    (∀ l ∈ t.graph.labels, ∀ a ∈ (this.clique l).tabData, 0 ≤ a) →
    ∃ s₁ s₂, this.collectEvidence t = some s₁ ∧ s₁.distributeEvidence t = some s₂ ∧
      Calibrated t s₂

omit [IsStrictOrderedRing K] in
theorem Collects.calibrated_of_all {ms : List (Message CString Edge)}
    (h : Collects (K := K) R ms) (htree : t.IsTree) (hproper : t.ProperSeparators)
    (hroot : t.graph.labels.head? = some root) (hall : CalibratesAll K t)
    {this : Potentials o K} {b : Beliefs CString Edge ℕ ℕ K} (hrep : Represents t this b)
    (hone : b.sep = fun _ _ => 1)
    (hconst : ∀ l ∈ t.graph.labels, ∃ c, 0 ≤ c ∧ b.clique l = fun _ => c) :
    ∃ s, Calibrated t s ∧ Represents t s (passAll o.dom t.clique t.separatorOf
      ((inward t.graph root).map Message.reply) (passAll o.dom t.clique t.separatorOf ms b)) := by
  obtain ⟨s₁, s₂, hcollect, hdistribute, hrep₂⟩ := h.passes htree hproper hroot hrep
  obtain ⟨s₁', s₂', hcollect', hdistribute', hcal⟩ := hall this (hrep.ready hone)
    fun l hl a ha => by
      obtain ⟨c, hc, heq⟩ := hconst l hl
      have hclique := hrep.clique l hl
      rw [heq] at hclique
      rw [eq_of_mem_tabData hclique ha]
      exact hc
  rw [hcollect, Option.some.injEq] at hcollect'
  subst hcollect'
  rw [hdistribute, Option.some.injEq] at hdistribute'
  subst hdistribute'
  exact ⟨s₂, hcal, hrep₂⟩

/-- For every junction tree with proper separators: if every clique is the root or one of
its neighbours, the two passes calibrate it whatever the non-negative tables are; and if
they do, and every variable has a value, every clique is the root or one of its
neighbours. -/
theorem calibrates_iff (htree : t.IsTree) (hri : t.HasRunningIntersection)
    (hproper : t.ProperSeparators)
    (hroot : (VertexOrdering.default t.graph).vertices.head? = some root) :
    (IsStar t root → CalibratesAll K t) ∧ (o.Discrete → (CalibratesAll K t ↔ IsStar t root)) := by
  rw [VertexOrdering.vertices_default] at hroot
  obtain ⟨R⟩ := htree.isTreeOn.exists_rooting (List.mem_of_mem_head? hroot)
  obtain ⟨ms, hms⟩ := exists_collects (K := K) htree hri hproper hroot R
  have hstar : IsStar t root → CalibratesAll K t := by
    intro hstar this hready _
    obtain ⟨s₁, s₂, hcollect, hdistribute, hrep⟩ :=
      hms.passes htree hproper hroot hready.represents
    exact ⟨s₁, s₂, hcollect, hdistribute,
      hms.calibrated htree hproper hstar hready.represents.isScoped hrep⟩
  refine ⟨hstar, fun hpos => ⟨fun hall => ?_, hstar⟩⟩
  by_contra hdeep
  obtain ⟨s, hcal, hrep⟩ := hms.calibrated_of_all htree hproper hroot hall (represents_ones t) rfl
    fun l _ => ⟨1, zero_le_one, rfl⟩
  obtain ⟨s', hcal', hrep'⟩ := hms.calibrated_of_all htree hproper hroot hall
    (represents_twosAt t root) rfl fun l _ => by
      by_cases hl : l = root
      · subst hl
        exact ⟨2, zero_le_two, by rw [scale_clique_self]; simp [unity]⟩
      · exact ⟨1, zero_le_one, by rw [scale_clique_of_ne hl]; rfl⟩
  exact hms.not_calibrated hpos htree hdeep hrep hrep' hcal hcal'

end Ordered

end Star

/-! ## Runs on the chain -/

open BNet

theorem chainTree_isJunctionTree (vo : VertexOrdering)
    (hvo : vo.vertices.Perm chainOrdering.labels)
    (horder : HasRIOrder (elimFamilies chainTables vo)) :
    (chainTree vo).IsTree ∧ (chainTree vo).HasRunningIntersection := by
  obtain ⟨bn, -, -, htables, -, -, -, hbuilt⟩ := chainTree_built vo hvo []
  refine ⟨hbuilt.isTree, hbuilt.hasRunningIntersection_iff.mpr ?_⟩
  rw [htables]
  exact horder

theorem collectEvidence_root_chain :
    ∃ bn s₀ s, createList2 chainTables [chainObservation] = some bn ∧
      bn.initializePotentials (chainTree chainVertices) (unset chainOrdering ℚ) = some s₀ ∧
      s₀.collectEvidence (chainTree chainVertices) = some s ∧
      ∀ x, (s.clique ['c', ' ', 'd', ' ']).vbls.InRange x →
        (s.clique ['c', ' ', 'd', ' ']).entry x = some (sumOut chainOrdering.dom {0, 1}
          (fun z => ((chainTree chainVertices).graph.labels.map fun l =>
            (s₀.clique l).val z).prod) x) := by
  obtain ⟨bn, hrun, -, -, -, hpots⟩ := chain_pots chainVertices (List.Perm.refl _)
  obtain ⟨htree, hri⟩ := chainTree_isJunctionTree chainVertices (List.Perm.refl _)
    (by decide)
  obtain ⟨s₀, hs₀, hrep⟩ := represents_initializePotentials (by decide)
    (fun p hp => (hpots p hp).1) (chainTree chainVertices) (unset chainOrdering ℚ)
  have hhead : (VertexOrdering.default (chainTree chainVertices).graph).vertices.head? =
      some ['c', ' ', 'd', ' '] := by decide +kernel
  obtain ⟨s, hs, hroot⟩ := collectEvidence_root htree hri properSeparators_chainTree hhead
    (hrep.ready (sep_foldl_enter _ _))
  have hothers : (chainTree chainVertices).allVbls \
      (chainTree chainVertices).clique ['c', ' ', 'd', ' '] = {0, 1} := by decide +kernel
  rw [hothers] at hroot
  exact ⟨bn, s₀, s, hrun, hs₀, hs, hroot⟩

/-- An ordering of the chain that gives a tree of two cliques. -/
def hubVertices : VertexOrdering := ⟨[['a'], ['b'], ['d'], ['c']]⟩

theorem calibrates_hub : CalibratesAll ℚ (chainTree hubVertices) := by
  obtain ⟨htree, hri⟩ := chainTree_isJunctionTree hubVertices (by decide) (by decide)
  have hhead : (VertexOrdering.default (chainTree hubVertices).graph).vertices.head? =
      some ['b', ' ', 'c', ' ', 'd', ' '] := by decide +kernel
  refine (calibrates_iff htree hri ⟨by decide +kernel, by decide +kernel, by decide +kernel⟩
    hhead).1 ?_
  have hedge : (Edge.create ['a', ' ', 'b', ' '] ['b', ' ', 'c', ' ', 'd', ' ']) ∈
      (chainTree hubVertices).graph.edgeList := by decide +kernel
  have hlabels : (chainTree hubVertices).graph.labels =
      [['b', ' ', 'c', ' ', 'd', ' '], ['a', ' ', 'b', ' ']] := by decide +kernel
  intro l hl
  rw [hlabels] at hl
  rcases List.mem_cons.mp hl with rfl | hl
  · exact Or.inl rfl
  · rw [List.mem_singleton.mp hl]
    exact Or.inr ⟨by decide, _, hedge, Sym2.eq_swap⟩

/-- In a path of three cliques the root's answer does not reach the last one. -/
theorem chain_not_calibrated :
    (chainTree chainVertices).IsTree ∧ (chainTree chainVertices).HasRunningIntersection ∧
      (chainTree chainVertices).ProperSeparators ∧
      ∃ s s₁ s₂ : Potentials chainOrdering ℚ, Ready (chainTree chainVertices) s ∧
        (∀ l ∈ (chainTree chainVertices).graph.labels, ∀ a ∈ (s.clique l).tabData, 0 ≤ a) ∧
        s.collectEvidence (chainTree chainVertices) = some s₁ ∧
        s₁.distributeEvidence (chainTree chainVertices) = some s₂ ∧
        ¬Calibrated (chainTree chainVertices) s₂ := by
  obtain ⟨htree, hri⟩ := chainTree_isJunctionTree chainVertices (List.Perm.refl _)
    (by decide)
  set t := chainTree chainVertices with ht
  have hready : Ready t (ones t : Potentials chainOrdering ℚ) := (represents_ones t).ready rfl
  set e := Edge.create ['a', ' ', 'b', ' '] ['b', ' ', 'c', ' '] with he
  set p : Pot chainOrdering ℚ :=
    Pot.createTabular (t.elimSet ['b', ' ', 'c', ' ']).toVariableSet [4, 4, 4, 4] with hp
  have hfinal : (((ones t : Potentials chainOrdering ℚ).collectEvidence t).bind fun s₁ =>
      (s₁.distributeEvidence t).map fun s₂ =>
        ((s₂.sep e.srcSink).entry fun _ => 0, s₂.clique e.sink)) = some (some 2, p) := by
    decide +kernel
  rw [Option.bind_eq_some_iff] at hfinal
  obtain ⟨s₁, hcollect, hfinal⟩ := hfinal
  obtain ⟨s₂, hdistribute, hfinal⟩ := Option.map_eq_some_iff.mp hfinal
  obtain ⟨hsep, hclique⟩ := Prod.mk.injEq .. ▸ hfinal
  refine ⟨htree, hri, properSeparators_chainTree, ones t, s₁, s₂, hready, by decide +kernel,
    hcollect, hdistribute, fun hcal => ?_⟩
  have hmem : e ∈ t.graph.edgeList := by decide +kernel
  have hothers : t.clique e.sink \ t.separatorOf e = {2} := by decide +kernel
  have hmargin : sumOut chainOrdering.dom {2} p.val (fun _ => 0) = 8 := by
    rw [sumOut_singleton]
    decide +kernel
  have hentry := hcal e hmem e.sink (Or.inr rfl) (fun _ => 0)
    (VariableSet.inRange_of_complete _ (complete_zero (by decide)))
  rw [hsep, hothers, hclique, hmargin] at hentry
  exact absurd hentry (by decide)

end Potentials

end JunctionBox
