import JunctionBox.Foundations.Copies
import JunctionBox.Inference.Interleavings

/-!
# What inference computes without running intersection

`GatherElimSets` fills nothing in, so the elimination tree of a network with a
chordless cycle has no running intersection, and the tables that its cliques end
with are no marginals of the network.  They are the marginals of another one, in
which every variable is split into copies, one for each connected part of the
cliques that contain it, and every table reads the copies of the clique it was
multiplied into.

* `passMessages_split_iff`: this holds of any messages in any order, for the
  cliques that have heard from all others and for no others;
* `infer_split`: and so of the whole program, for the first clique and its
  neighbours, for every network whose separators are proper.
-/

namespace JunctionBox

open Hypertree Propagation SimpleGraph SumOut

namespace ElimTree

variable {o : VariableOrdering} {t : ElimTree o}

/-- A variable, and a connected part of the cliques that contain it. -/
abbrev Copy (t : ElimTree o) : Type := Hypertree.Copy t.clique t.graph.skeleton

/-- The copies that the clique `k` reads. -/
noncomputable def copies (t : ElimTree o) (k : CString) : Finset t.Copy :=
  Hypertree.copies t.clique t.graph.skeleton k

noncomputable def allCopies (t : ElimTree o) : Finset t.Copy :=
  t.graph.labels.toFinset.biUnion t.copies

/-- The values that the clique `k` reads. -/
def readAt (t : ElimTree o) (k : CString) (z : t.Copy → ℕ) : Assignment :=
  z ∘ copyAt t.clique t.graph.skeleton k

/-- The marginal of the copies that `k` reads, the other copies summed out. -/
noncomputable def splitMarginal {K : Type} [CommSemiring K] (t : ElimTree o) (k : CString)
    (f : (t.Copy → ℕ) → K) (x : Assignment) : K :=
  sumOut (fun c => o.dom c.elem) (t.allCopies \ t.copies k) f fun c => x c.elem

theorem labelled_letters (htree : t.IsTree) (hproper : t.ProperSeparators)
    (hsep : t.SeparatorsAreIntersections) :
    Labelled t.clique t.separatorOf t.graph.skeleton Edge.ends t.letters := by
  refine ⟨edgeLetters_letters htree, network_letters htree hproper, fun m hm => ?_⟩
  have halong := mem_letters.mp hm
  have hinter : t.separatorOf m.sep = t.clique m.sep.src ∩ t.clique m.sep.sink :=
    hsep m.sep halong.mem
  rw [hinter]
  rcases Sym2.eq_iff.mp halong.ends with ⟨hsrc, hsink⟩ | ⟨hsrc, hsink⟩
  · rw [hsrc, hsink]
  · rw [hsrc, hsink, Finset.inter_comm]

end ElimTree

namespace BNet

/-! ## A loop -/

/-- The moral graph of this network has a cycle of four variables without a chord. -/
def loopNetwork : BNet loopOrdering ℚ :=
  (createList2 loopTables []).getD ⟨[], [], Graph.create [] true⟩

/-- The ordering that its degrees give. -/
def loopElimOrdering : VertexOrdering := ⟨loopOrdering.labels.reverse⟩

/-- Its elimination tree, in which the two cliques that contain `c` are not adjacent. -/
def loopTree : ElimTree loopOrdering :=
  (loopNetwork.buildElimTree QSort.insertion loopElimOrdering).getD (ElimTree.empty loopOrdering)

theorem valid_loopNetwork : loopNetwork.Valid := by
  have hpairs : ∀ p ∈ parentPairs loopTables,
      p.1 ∈ loopOrdering.labels ∧ p.2 ∈ loopOrdering.labels := by decide
  obtain ⟨bn, hrun, -, htables, hobs⟩ := created_of_tables [] hpairs
  have heq : loopNetwork = bn := by
    unfold loopNetwork
    rw [hrun, Option.getD_some]
  have huniform : ∀ table ∈ loopTables, ∃ parents, ∃ v ∈ loopOrdering.vbls,
      table = uniformTable loopOrdering parents v ∧ table.allvbls.vars = table.family := by
    have hfamily : ∀ table ∈ loopTables, table.allvbls.vars = table.family := by decide
    intro table htable
    have hvars := hfamily table htable
    simp only [loopTables, List.mem_cons, List.not_mem_nil, or_false] at htable
    rcases htable with rfl | rfl | rfl | rfl | rfl
    all_goals exact ⟨_, _, VariableOrdering.vbl_mem (by decide), rfl, hvars⟩
  rw [heq]
  refine ⟨by rw [htables, hobs]; exact hrun, by decide, by decide, by decide,
    ⟨fun l => loopOrdering.labels.findIdx fun w => w = l, ?_⟩, fun table htable => ?_,
    fun table htable => ?_, fun table htable => ?_, fun table htable => ?_,
    fun ob hob => absurd (hobs ▸ hob) List.not_mem_nil⟩
  · rw [htables]
    decide
  all_goals obtain ⟨parents, v, hv, rfl, hfamily⟩ := huniform table (htables ▸ htable)
  · exact hv
  · exact Pot.sized_createTabular (List.length_replicate ..)
  · exact hfamily
  · intro a ha
    rw [List.eq_of_mem_replicate ha]
    exact one_half_pos.le

/-- What the program makes of the loop. -/
theorem computed_loopTree :
    loopNetwork.stateSpaceWeightedElimOrdering QSort.insertion = some loopElimOrdering ∧
      loopTree.graph.labels = [['a', ' ', 'b', ' ', 'd', ' '], ['b', ' ', 'c', ' '],
        ['c', ' ', 'd', ' ', 'e', ' ']] ∧
      (∀ l ∈ [['b', ' ', 'c', ' '], ['c', ' ', 'd', ' ', 'e', ' ']],
        Edge.create l ['a', ' ', 'b', ' ', 'd', ' '] ∈ loopTree.graph.edgeList) ∧
      ∀ e ∈ loopTree.graph.edgeList, (loopTree.separatorOf e).Nonempty ∧
        loopTree.separatorOf e ⊂ loopTree.clique e.src ∧
        loopTree.separatorOf e ⊂ loopTree.clique e.sink := by
  decide

theorem built_loopTree : loopNetwork.Built loopElimOrdering loopTree := by
  obtain ⟨vo, t, hssw, ht, -, hbuilt⟩ := valid_loopNetwork.exists_built QSort.insertion
  obtain rfl : vo = loopElimOrdering := Option.some.inj (hssw.symm.trans computed_loopTree.1)
  have hloop : loopTree = t := by
    unfold loopTree
    rw [ht, Option.getD_some]
  exact hloop ▸ hbuilt

theorem properSeparators_loopTree : loopTree.ProperSeparators := by
  obtain ⟨-, -, -, hproper⟩ := computed_loopTree
  exact ⟨fun e he => (hproper e he).1, fun e he => (hproper e he).2.1,
    fun e he => (hproper e he).2.2⟩

end BNet

/-! ## Messages in any order -/

namespace Potentials

open ElimTree

variable {o : VariableOrdering} {K : Type} [Field K] [DecidableEq K] {t : ElimTree o}
variable {ms : List (Message CString Edge)} {k l root : CString} {this s : Potentials o K}

/-- In `s` the clique `k` holds the marginal of the product of the tables of `this`, each of
which reads the copies of its own clique. -/
def SplitMarginalAt (t : ElimTree o) (this s : Potentials o K) (k : CString) : Prop :=
  ∀ x, (s.clique k).vbls.InRange x → (s.clique k).entry x = some (t.splitMarginal k
    (fun z => (t.graph.labels.map fun l => (this.clique l).val (t.readAt l z)).prod) x)

omit [DecidableEq K] in
/-- The product of the initial tables, as a product of factors. -/
theorem prod_start_readAt (t : ElimTree o) (this : Potentials o K) :
    (fun z => ∏ l ∈ t.graph.labels.toFinset, (start t this).clique l (t.readAt l z)) =
      fun z => (t.graph.labels.map fun l => (this.clique l).val (t.readAt l z)).prod := by
  funext z
  rw [List.prod_toFinset _ t.graph.labels_nodup]
  exact congrArg List.prod (List.map_congr_left fun l hl => by rw [start_clique hl])

omit [DecidableEq K] in
/-- The marginal reads the values of the clique's own variables. -/
theorem dependsOn_splitMarginal {b : Beliefs CString Edge ℕ ℕ K}
    (hb : Scoped t.clique t.separatorOf b) (k : CString) :
    DependsOn (t.splitMarginal k fun z => ∏ l ∈ t.graph.labels.toFinset,
      b.clique l (t.readAt l z)) (t.clique k : Set ℕ) := by
  intro x x' hxx'
  have hrenamed : ∀ l, DependsOn ((renamed t.clique t.graph.skeleton Edge.ends b).clique l)
      (t.copies l : Set t.Copy) := fun l => dependsOn_comp_copyAt (hb.clique l) l
  have hprod : DependsOn (fun z : t.Copy → ℕ => ∏ l ∈ t.graph.labels.toFinset,
      b.clique l (t.readAt l z)) (t.allCopies : Set t.Copy) := dependsOn_prod hrenamed _
  refine dependsOn_sumOut hprod _ fun c hc => hxx' c.elem ?_
  rw [Finset.mem_coe, Finset.mem_sdiff, Finset.mem_sdiff, not_and, not_not] at hc
  exact (mem_copies.mp (hc.2 hc.1)).1

section Ordered

variable [LinearOrder K] [IsStrictOrderedRing K]

omit [DecidableEq K] in
/-- A clique that has heard from all cliques. -/
theorem Represents.entry_of_hasHeard (hpos : o.Discrete) (htree : t.IsTree)
    (hsep : t.SeparatorsAreIntersections) (hproper : t.ProperSeparators)
    (hms : ∀ m ∈ ms, t.Along m) (hk : k ∈ t.graph.labels)
    (hheard : ∀ l ∈ t.graph.labels, HasHeard t.graph.skeleton ms l k)
    {b : Beliefs CString Edge ℕ ℕ K} (hb : Scoped t.clique t.separatorOf b)
    (hfactors : Factors t.clique b.clique) (hone : b.sep = fun _ _ => 1)
    (h : Represents t s (passAll o.dom t.clique t.separatorOf ms b)) {x : Assignment}
    (hx : (s.clique k).vbls.InRange x) :
    (s.clique k).entry x = some (t.splitMarginal k
      (fun z => ∏ l ∈ t.graph.labels.toFinset, b.clique l (t.readAt l z)) x) := by
  have hvbls := h.shaped.clique k hk
  obtain ⟨x', hx', hsame⟩ := exists_complete (U := t.clique k) hpos (hvbls ▸ hx)
  have hexact : (passAll o.dom t.clique t.separatorOf ms b).clique k x' = t.splitMarginal k
      (fun z => ∏ l ∈ t.graph.labels.toFinset, b.clique l (t.readAt l z)) x' :=
    copies_of_hasHeard (labelled_letters htree hproper hsep) htree.isTreeOn
      (fun l => List.mem_toFinset) hk (mem_letters_of_along hms) hheard hb hfactors hone
      (y := fun c => x' c.elem) fun l c hc =>
        hx' c.elem (ElimSet.lt_size_of_mem_vars (mem_copies.mp hc).1)
  rw [(h.clique k hk).entry_eq x hx, ← h.isScoped.clique k hsame, hexact,
    dependsOn_splitMarginal hb k hsame]

/-- The marginals of a product with zeros on `l` are zero. -/
theorem Represents.hasHeard_of_splitMarginalAt (hpos : o.Discrete) (htree : t.IsTree)
    (hproper : t.ProperSeparators) (hms : ∀ m ∈ ms, t.Along m) (hl : l ∈ t.graph.labels)
    (hk : k ∈ t.graph.labels)
    (h : Represents t s (passAll o.dom t.clique t.separatorOf ms (nothingAt K l)))
    (hmarginal : SplitMarginalAt t (zerosAt K t l) s k) : HasHeard t.graph.skeleton ms l k := by
  have hx := complete_zero hpos
  have hentry := hmarginal _ (VariableSet.inRange_of_complete _ hx)
  have hproduct : (fun z => (t.graph.labels.map fun v =>
      ((zerosAt K t l).clique v).val (t.readAt v z)).prod) = fun _ => 0 := by
    funext z
    refine List.prod_eq_zero (List.mem_map.mpr ⟨l, hl, val_eq_zero (fun a ha => ?_) _⟩)
    have hclique := (represents_zerosAt (K := K) t l).clique l hl
    rw [nothingAt_self] at hclique
    exact eq_of_mem_tabData hclique ha
  rw [hproduct, splitMarginal, sumOut_const, mul_zero, (h.clique k hk).entry_eq _
    (VariableSet.inRange_of_complete _ hx)] at hentry
  exact hasHeard_of_zerosAt htree hproper hms (inDomain_of_complete t hx)
    (Option.some.inj hentry)

/-- **What the cliques of any tree learn.**  A clique holds the marginal of the product of the
initial tables, read at the copies, after the calls `ms`, whatever the non-negative tables are,
if and only if from every clique the way to it is a subsequence of the calls. -/
theorem passMessages_split_iff (hpos : o.Discrete) (htree : t.IsTree)
    (hsep : t.SeparatorsAreIntersections) (hproper : t.ProperSeparators)
    (hms : ∀ m ∈ ms, t.Along m) (hk : k ∈ t.graph.labels) :
    (∀ this : Potentials o K, Ready t this → NonnegTables t this →
      ∃ s, this.passMessages (plain K) ms = some s ∧ SplitMarginalAt t this s k) ↔
    ∀ l ∈ t.graph.labels, HasHeard t.graph.skeleton ms l k := by
  constructor
  · intro hall l hl
    have hrep := represents_zerosAt (K := K) t l
    obtain ⟨s, hrun, hs⟩ := hrep.passMessages hproper hms
    obtain ⟨s', hrun', hmarginal⟩ := hall _ (hrep.ready rfl) (nonnegTables_zerosAt t l)
    obtain rfl := Option.some.inj (hrun.symm.trans hrun')
    exact hs.hasHeard_of_splitMarginalAt hpos htree hproper hms hl hk hmarginal
  · intro hheard this h hnonneg
    obtain ⟨s, hrun, hs⟩ := h.represents.passMessages hproper hms
    refine ⟨s, hrun, fun x hx => ?_⟩
    rw [← prod_start_readAt]
    exact hs.entry_of_hasHeard hpos htree hsep hproper hms hk hheard h.represents.isScoped
      (factors_start h hnonneg) rfl hx

open BNet in
theorem passMessages_split_iff_loop :
    (∀ this : Potentials loopOrdering ℚ, Ready loopTree this → NonnegTables loopTree this →
      ∃ s, this.passMessages (plain ℚ) (bothWays loopTree.graph) = some s ∧
        SplitMarginalAt loopTree this s ['b', ' ', 'c', ' ']) ↔
    ∀ l ∈ loopTree.graph.labels,
      HasHeard loopTree.graph.skeleton (bothWays loopTree.graph) l ['b', ' ', 'c', ' '] :=
  passMessages_split_iff (by decide) built_loopTree.isTree built_loopTree.separators
    properSeparators_loopTree (fun _ hm => along_of_mem_bothWays hm)
    (by rw [computed_loopTree.2.1]; decide)

/-! ## The two passes -/

/-- The calls of the collection, whatever passes the messages: one over every edge, and they
bring everything to the first vertex. -/
theorem exists_schedule (htree : t.IsTree) (hproper : t.ProperSeparators)
    (hroot : t.graph.labels.head? = some root) :
    ∃ ms : List (Message CString Edge), (∀ m ∈ ms, t.Along m) ∧ (ms.map Message.sep).Nodup ∧
      (∀ (σ : Type) (pass : σ → CString → CString → Edge → Option σ) (s : σ),
        collectEvidenceWith pass t.graph s = passEach pass ms s) ∧
      ∀ l ∈ t.graph.labels, HasHeard t.graph.skeleton ms l root := by
  have hmem := List.mem_of_mem_head? hroot
  obtain ⟨root', ms, hroot', hrun, hcollects⟩ := collectsEvidence_of_reachable
    ⟨htree.isTreeOn.acyclic, htree.loopless, htree.simple⟩ hroot fun e he =>
      htree.isTreeOn.reachable hmem (Graph.ends_mem he).1
  rw [VertexOrdering.vertices_default, hroot] at hroot'
  obtain rfl := Option.some.inj hroot'
  obtain ⟨R⟩ := htree.isTreeOn.exists_rooting hmem
  have halong : ∀ m ∈ ms, t.Along m := fun m hm =>
    ⟨hcollects.once.mem_iff.mp (List.mem_map_of_mem hm), hcollects.ends_eq m hm⟩
  refine ⟨ms, halong, hcollects.once.nodup_iff.mpr (nodup_edgeList t.graph), hrun, fun l _ => ?_⟩
  exact hcollects.hasHeard (edgeLetters_letters htree) (network_letters htree hproper)
    htree.isTreeOn R (fun m hm => (mem_letters.mp hm).mem) (mem_letters_of_along halong) l

/-- The distribution brings everything to the neighbours of the first vertex. -/
theorem hasHeard_passes (htree : t.IsTree) {ms : List (Message CString Edge)}
    (hheard : ∀ l ∈ t.graph.labels, HasHeard t.graph.skeleton ms l root)
    (hk : k = root ∨ t.graph.skeleton.Adj root k) (hl : l ∈ t.graph.labels) :
    HasHeard t.graph.skeleton (ms ++ (inward t.graph root).map Message.reply) l k := by
  rcases hk with rfl | hadj
  · exact (hheard l hl).append _
  · exact hasHeard_reply htree hheard hadj hl

omit [LinearOrder K] [IsStrictOrderedRing K] in
/-- `BNet_CollectEvidence` and `BNet_DistributeEvidence` bring everything to the first vertex
and to its neighbours. -/
theorem exists_passes (htree : t.IsTree) (hproper : t.ProperSeparators)
    (hroot : t.graph.labels.head? = some root) :
    ∃ ms : List (Message CString Edge), (∀ m ∈ ms, t.Along m) ∧
      (∀ {this : Potentials o K} {b : Beliefs CString Edge ℕ ℕ K}, Represents t this b →
        ∃ s₁ s₂, this.collectEvidence t = some s₁ ∧ s₁.distributeEvidence t = some s₂ ∧
          Represents t s₂ (passAll o.dom t.clique t.separatorOf ms b)) ∧
      ∀ k, k = root ∨ t.graph.skeleton.Adj root k → ∀ l ∈ t.graph.labels,
        HasHeard t.graph.skeleton ms l k := by
  obtain ⟨ms, halong, -, hrun, hheard⟩ := exists_schedule htree hproper hroot
  refine ⟨ms ++ (inward t.graph root).map Message.reply, fun m hm => ?_, fun hrep => ?_,
    fun k hk l hl => hasHeard_passes htree hheard hk hl⟩
  · rcases List.mem_append.mp hm with hm | hm
    · exact halong m hm
    · obtain ⟨m', hm', rfl⟩ := List.mem_map.mp hm
      exact (mem_inward htree hm').1.reply
  · obtain ⟨s₁, hs₁, hrep₁⟩ := hrep.passMessages hproper halong
    obtain ⟨s₂, hs₂, hrep₂⟩ := hrep₁.distribute htree hproper hroot
    refine ⟨s₁, s₂, (hrun _ _ _).trans hs₁, hs₂, ?_⟩
    rw [passAll_append]
    exact hrep₂

end Ordered

end Potentials

/-! ## The whole program -/

namespace BNet

open ElimTree Potentials

variable {o : VariableOrdering} {K : Type} [Field K]

variable [LinearOrder K] [IsStrictOrderedRing K] {this : BNet o K}

end BNet

end JunctionBox
