import JunctionBox.Inference.IntMessages
import JunctionBox.Inference.Star

/-!
# From a network to its marginals

The whole pipeline: order the vertices, build the elimination tree, initialise
its potentials, collect, distribute, and sum a clique that contains a variable
onto that variable.

`Valid.exact` says when the numbers that come out are the marginals of the
product of all tables and observations.  There has to be more than one variable;
the elimination families have to fit an `int`, to have a running intersection
ordering, and to be `Central`, so that the tree is a star with proper separators.
-/

namespace JunctionBox

open Hypertree Propagation SumOut

namespace Potentials

variable {o : VariableOrdering} {t : ElimTree o} {root : CString}

/-- `BNet_AllContClqPot`. -/
def allContClqPot {α : Type} (this : Potentials o α) (t : ElimTree o) (vbl : Variable) :
    List (Pot o α) :=
  let vs := (VariableSet.create o).add vbl
  (t.graph.labels.map this.clique).filter fun curPot => vs.containedIn curPot.vbls

theorem mem_allContClqPot {α : Type} {this : Potentials o α} {vbl : Variable} {i : ℕ}
    (hi : o.getVariableRank vbl = some i) {p : Pot o α} :
    p ∈ this.allContClqPot t vbl ↔ ∃ l ∈ t.graph.labels, this.clique l = p ∧ i ∈ p.vbls.vars := by
  unfold allContClqPot
  rw [List.mem_filter, List.mem_map, VariableSet.containedIn_iff,
    VariableSet.vars_add_create hi, Finset.singleton_subset_iff]
  constructor
  · rintro ⟨⟨l, hl, heq⟩, hmem⟩
    exact ⟨l, hl, heq, hmem⟩
  · rintro ⟨l, hl, heq, hmem⟩
    exact ⟨⟨l, hl, heq⟩, hmem⟩

section Plain

variable {K : Type} [Field K] [LinearOrder K] [IsStrictOrderedRing K]
variable {R : Rooting {l | l ∈ t.graph.labels} t.graph.skeleton root}

omit [IsStrictOrderedRing K] in
/-- The collected messages of a star. -/
theorem Collects.star {ms : List (Message CString Edge)} (h : Collects (K := K) R ms)
    (hstar : IsStar t root) (hri : t.HasRunningIntersection) (htree : t.IsTree)
    (hproper : t.ProperSeparators) :
    Star t.clique t.separatorOf t.graph.labels.toFinset root ms := by
  have hadj : ∀ m ∈ ms, t.graph.skeleton.Adj root m.sender := fun m hm =>
    (hstar _ (h.upward m hm).2.sender_mem).resolve_left (h.upward m hm).1.ne_root
  have hreceiver : ∀ m ∈ ms, m.receiver = root := fun m hm => by
    rw [(h.upward m hm).1.receiver, (parent_of_adj_root (hadj m hm)).2]
  refine ⟨List.mem_toFinset.mpr R.root_mem, hreceiver, fun m hm => (h.absorbs.fits m hm).1,
    fun m hm => (h.absorbs.fits m hm).2.1, h.absorbs.nodup.1, h.absorbs.nodup.2,
    fun k hk hne => ?_, fun m hm k hk hne => ?_⟩
  · exact List.mem_map.mp ((h.senders k).mpr ⟨List.mem_toFinset.mp hk, hne⟩)
  · -- nothing is below a clique next to the root but itself
    have hk' := List.mem_toFinset.mp hk
    have hup := (h.upward m hm).1
    have hdepth : R.depth k ≤ R.depth m.sender := by
      rw [hup.depth, hreceiver m hm, R.depth_root]
      rcases hstar k hk' with rfl | hadj'
      · rw [R.depth_root]
        exact Nat.zero_le _
      · obtain ⟨hroot, hparent⟩ := parent_of_adj_root (R := R) hadj'
        rw [R.depth_parent hk' hroot, hparent, R.depth_root]
    have hnot : ¬R.Below m.sender k := fun hbelow =>
      hne (hbelow.eq_of_depth_eq (le_antisymm hbelow.depth_le hdepth)).symm
    rw [hri.separatorOf_eq htree hproper (h.upward m hm).2, hup.receiver]
    exact Finset.subset_inter Finset.inter_subset_left
      (R.inter_subset_parent (hri.isJunctionTree htree) hup.sender hk' hnot)

/-- **What both passes leave in a star**: the marginals of the product of all cliques. -/
theorem Collects.exact {ms : List (Message CString Edge)} (h : Collects (K := K) R ms)
    (hstar : IsStar t root) (hri : t.HasRunningIntersection) (htree : t.IsTree)
    (hproper : t.ProperSeparators) {b : Beliefs CString Edge ℕ ℕ K}
    (hb : Scoped t.clique t.separatorOf b) (hone : b.sep = fun _ _ => 1) (hnonneg : Nonneg b)
    {l : CString} (hl : l ∈ t.graph.labels) {x : Assignment}
    (hx : ∀ i ∈ t.clique l, x i ∈ o.dom i) :
    (passAll o.dom t.clique t.separatorOf ((inward t.graph root).map Message.reply)
        (passAll o.dom t.clique t.separatorOf ms b)).clique l x =
      sumOut o.dom (t.allVbls \ t.clique l)
        (fun z => ∏ k ∈ t.graph.labels.toFinset, b.clique k z) x := by
  have hones : ∀ m ∈ ms, b.sep m.sep = fun _ => 1 := fun m _ => by rw [hone]
  rcases hstar l hl with rfl | hadj
  · rw [clique_of_not_adj htree _ (t.graph.skeleton.irrefl (v := l)),
      h.absorbs.clique_root hb hones]
    rfl
  · obtain ⟨e, he⟩ := ElimTree.IsTree.exists_mem_neighbors hadj
    have hm : (⟨root, l, e⟩ : Message CString Edge) ∈ inward t.graph root :=
      List.mem_map.mpr ⟨_, he, rfl⟩
    have hclique := (passAll_reply_inward htree (passAll o.dom t.clique t.separatorOf ms b) hm).1
    rw [hclique]
    exact (h.star hstar hri htree hproper).reply_exact hb hones
      (h.mem_of_mem_inward htree hm) (hnonneg.clique l) hx

omit [IsStrictOrderedRing K] in
/-- What the sum-margin of a clique onto one of its variables returns. -/
theorem Represents.sumMarginTabularSingleVbl {s : Potentials o K}
    {b : Beliefs CString Edge ℕ ℕ K} (h : Represents t s b) (hdistinct : o.DistinctLabels)
    (hpos : o.Discrete) (hfits : IntTables.CliquesFit t) {l : CString} (hl : l ∈ t.graph.labels)
    {i : ℕ} (hi : i ∈ t.clique l) (hcard : 1 < (t.clique l).card) :
    ∃ entries, IntTables.sumMarginTabularSingleVbl (plain K) (s.clique l) (o.vbl i) =
        some entries ∧ entries.length = (o.vbl i).cardinality ∧
      ∀ a < (o.vbl i).cardinality,
        entries[a]? = some (sumOut o.dom (t.clique l \ {i}) (b.clique l) fun _ => a) := by
  have hrank := hdistinct.getVariableRank_vbl (ElimSet.lt_size_of_mem_vars hi)
  have hvbls := h.shaped.clique l hl
  have hvars : (s.clique l).vbls.vars = t.clique l := by
    rw [hvbls]
    rfl
  have hproper : {i} ⊂ (s.clique l).vbls.vars := by
    rw [hvars]
    refine (Finset.singleton_subset_iff.mpr hi).ssubset_of_ne fun heq => ?_
    rw [← heq, Finset.card_singleton] at hcard
    exact absurd hcard (lt_irrefl _)
  obtain ⟨entries, hentries, hlen, hget⟩ := Pot.sumMarginTabularSingleVbl_eq hpos
    (h.clique l hl) (hvars ▸ h.isScoped.clique l) hrank hproper
  refine ⟨entries, ?_, hlen, fun a ha => ?_⟩
  · rw [IntTables.sumMarginTabularSingleVbl_of_fits hpos (hvbls ▸ hfits l hl)]
    · exact hentries
    · rw [VariableSet.vars_add_create hrank]
      exact hproper.subset
  · rw [hget (fun _ => a) ha, hvars]

end Plain

end Potentials

/-- In a tree with proper separators the cliques have more than one variable, unless there is
only one variable. -/
theorem ElimTree.IsTree.one_lt_card {o : VariableOrdering} {t : ElimTree o} (htree : t.IsTree)
    (hproper : t.ProperSeparators) (hsize : 1 < o.size)
    (hcover : ∀ i < o.size, ∃ l ∈ t.graph.labels, i ∈ t.clique l) {l : CString}
    (hl : l ∈ t.graph.labels) : 1 < (t.clique l).card := by
  have hedge : ∀ l', t.graph.skeleton.Adj l l' → 1 < (t.clique l).card := by
    rintro l' ⟨-, e, he, hends⟩
    have halong : t.Along ⟨l', l, e⟩ := ⟨he, hends⟩
    have hnonempty := Finset.card_pos.mpr (hproper.nonempty e he)
    have hlt := Finset.card_lt_card (hproper.sender halong)
    show 1 < (t.clique l).card
    exact lt_of_le_of_lt hnonempty hlt
  by_cases hother : ∃ l' ∈ t.graph.labels, l' ≠ l
  · obtain ⟨l', hl', hne⟩ := hother
    obtain ⟨p⟩ := htree.isTreeOn.reachable hl hl'
    cases p with
    | nil => exact absurd rfl hne
    | cons hadj p => exact hedge _ hadj
  · -- the only clique contains everything
    push Not at hother
    have hall : Finset.range o.size ⊆ t.clique l := by
      intro i hi
      obtain ⟨l', hl', hmem⟩ := hcover i (Finset.mem_range.mp hi)
      exact hother l' hl' ▸ hmem
    have hcard := Finset.card_le_card hall
    rw [Finset.card_range] at hcard
    exact hsize.trans_le hcard

namespace BNet

open Potentials

variable {o : VariableOrdering} {K : Type} [Field K] [LinearOrder K] [IsStrictOrderedRing K]

/-- The same with the sizes and indices of the source's `int`. -/
def inferInt (qsort : QSort) (state : Potentials o K) (this : BNet o K) :
    Option (ElimTree o × Potentials o K) := do
  let vo ← this.stateSpaceWeightedElimOrdering qsort
  let t ← this.buildElimTree qsort vo
  let s ← this.initializePotentialsInt t state
  let s ← IntTables.collectEvidence (plain K) t s
  let s ← IntTables.distributeEvidence (plain K) t s
  return (t, s)

/-- A network of distinct discrete variables, with non-negative tables over the families and
observations made by `Observation_Create`. -/
structure Valid (this : BNet o K) : Prop where
  created : createList2 this.tables this.obs = some this
  distinct : o.DistinctLabels
  spaceFree : o.SpaceFreeLabels
  discrete : o.Discrete
  acyclic : this.Acyclic
  tableFor : ∀ table ∈ this.tables, table.tableFor ∈ o.vbls
  sized : ∀ table ∈ this.tables, table.pot.Sized
  family : ∀ table ∈ this.tables, table.allvbls.vars = table.family
  nonneg : ∀ table ∈ this.tables, ∀ a ∈ table.pot.tabData, 0 ≤ a
  obs : ∀ ob ∈ this.obs, ∃ v ∈ o.vbls, ∃ value,
    Observation.create ((VariableSet.create o).add v) value = some ob

/-- The product of all tables and all observations. -/
def product (this : BNet o K) (x : Assignment) : K :=
  (this.tables.map fun table => table.pot.val x).prod * (this.obs.map fun ob => ob.pot.val x).prod

/-- The sum of the products at all complete assignments that give the variable of rank `i`
the value `a`. -/
noncomputable def marginal (this : BNet o K) (i a : ℕ) : K :=
  sumOut o.dom (Finset.range o.size \ {i}) this.product fun _ => a

/-- Every clique that contains a variable, summed onto it, holds its marginals. -/
def HoldsMarginals (this : BNet o K) (t : ElimTree o) (s : Potentials o K) : Prop :=
  ∀ i < o.size, ∀ p ∈ s.allContClqPot t (o.vbl i), ∃ entries,
    IntTables.sumMarginTabularSingleVbl (plain K) p (o.vbl i) = some entries ∧
    entries.length = (o.vbl i).cardinality ∧
    ∀ a < (o.vbl i).cardinality, entries[a]? = some (this.marginal i a)

/-- The run is defined, and the cliques hold the marginals. -/
def Exact (qsort : QSort) (state : Potentials o K) (this : BNet o K) : Prop :=
  ∃ t s, this.inferInt qsort state = some (t, s) ∧ this.HoldsMarginals t s

section Valid

variable {this : BNet o K} {vo : VertexOrdering} {t : ElimTree o}

omit [IsStrictOrderedRing K] in
theorem Valid.isCreated (h : this.Valid) : this.Created := Or.inr h.created

omit [IsStrictOrderedRing K] in
theorem Valid.family_nonempty (h : this.Valid) {table : CPT o K} (htable : table ∈ this.tables) :
    table.family.Nonempty := by
  obtain ⟨i, hi, hvbl⟩ := VariableOrdering.exists_vbl_eq (h.tableFor table htable)
  refine ⟨i, Finset.mem_filter.mpr ⟨Finset.mem_range.mpr hi, ?_⟩⟩
  rw [hvbl]
  exact List.mem_cons_self ..

/-- The potential of an accepted observation is a table over its variable. -/
theorem pot_of_create {v : Variable} {i : ℕ} (hi : o.getVariableRank v = some i) {value : ℤ}
    {ob : Observation o K}
    (h : Observation.create ((VariableSet.create o).add v) value = some ob) :
    Enterable ob.pot ∧ ob.pot.vbls.vars = {i} ∧ ∀ a ∈ ob.pot.tabData, 0 ≤ a := by
  have hvars := VariableSet.vars_add_create hi
  obtain ⟨hvbls, hrep⟩ := Observation.represents_createWith hvars h
  have hpotvars : ob.pot.vbls.vars = {i} := by rw [hvbls, hvars]
  refine ⟨⟨hrep.sized, hpotvars ▸ Finset.singleton_nonempty i⟩, hpotvars, fun a ha => ?_⟩
  obtain ⟨x, hx, hentry⟩ := hrep.sized.exists_entry ha
  rw [hrep.entry_eq x hx, Option.some.injEq] at hentry
  rw [← hentry]
  split
  · exact zero_le_one
  · exact le_rfl

/-- The potentials of a network can be multiplied into the cliques, and each fits in one. -/
theorem Valid.pots (h : this.Valid) (hvo : this.IsOrdering vo) (hbuilt : this.Built vo t) :
    ∀ p ∈ this.pots, Enterable p ∧ (∃ l ∈ t.graph.labels, p.vbls.vars ⊆ t.clique l) ∧
      ∀ a ∈ p.tabData, 0 ≤ a := by
  intro p hp
  rcases List.mem_append.mp hp with hp | hp
  · obtain ⟨table, htable, rfl⟩ := List.mem_map.mp hp
    have hvars : table.pot.vbls.vars = table.family := h.family table htable
    have hne := h.family_nonempty htable
    refine ⟨⟨h.sized table htable, hvars ▸ hne⟩, ?_, h.nonneg table htable⟩
    rw [hvars]
    exact hbuilt.exists_family_subset hvo h.isCreated htable hne
  · obtain ⟨ob, hob, rfl⟩ := List.mem_map.mp hp
    obtain ⟨v, hv, value, hcreate⟩ := h.obs ob hob
    obtain ⟨i, hi⟩ := VariableOrdering.getVariableRank_isSome hv
    obtain ⟨henter, hvars, hnonneg⟩ := pot_of_create hi hcreate
    obtain ⟨l, hl, hmem⟩ := hbuilt.exists_mem_clique hvo h.isCreated
      (VariableOrdering.getVariableRank_lt hi).1
    exact ⟨henter, ⟨l, hl, hvars ▸ Finset.singleton_subset_iff.mpr hmem⟩, hnonneg⟩

omit [IsStrictOrderedRing K] in
/-- The ordering and the tree of a network. -/
theorem Valid.exists_built (h : this.Valid) (qsort : QSort) :
    ∃ vo t, this.stateSpaceWeightedElimOrdering qsort = some vo ∧
      this.buildElimTree qsort vo = some t ∧ this.IsOrdering vo ∧ this.Built vo t := by
  obtain ⟨vo, hssw, hvo⟩ := h.isCreated.isOrdering_stateSpaceWeighted qsort
  obtain ⟨t, ht, hbuilt⟩ := h.isCreated.buildElimTree h.distinct h.spaceFree qsort hvo
  exact ⟨vo, t, hssw, ht, hvo, hbuilt⟩

theorem Built.allVbls_eq {α : Type} {this : BNet o α} (hbuilt : this.Built vo t)
    (hvo : this.IsOrdering vo) (h : this.Created) : t.allVbls = Finset.range o.size := by
  unfold ElimTree.allVbls
  ext i
  rw [Finset.mem_biUnion, Finset.mem_range]
  constructor
  · rintro ⟨l, -, hmem⟩
    exact ElimSet.lt_size_of_mem_vars hmem
  · intro hi
    obtain ⟨l, hl, hmem⟩ := hbuilt.exists_mem_clique hvo h hi
    exact ⟨l, List.mem_toFinset.mpr hl, hmem⟩

omit [LinearOrder K] [IsStrictOrderedRing K] in
/-- The product of the initial cliques at the complete assignments. -/
theorem prod_foldl_enter_pots (hfit : ∀ p ∈ this.pots, ∃ l ∈ t.graph.labels,
    p.vbls.vars ⊆ t.clique l) (x : Assignment) :
    ∏ k ∈ t.graph.labels.toFinset, (this.pots.foldl (enter t) unity).clique k x =
      this.product x := by
  rw [prod_foldl_enter hfit unity x]
  unfold BNet.pots BNet.product
  rw [List.map_append, List.prod_append, List.map_map, List.map_map]
  simp [unity, Function.comp_def]

omit [LinearOrder K] [IsStrictOrderedRing K] in
/-- Summing the marginal of a clique onto one of its variables. -/
theorem sumOut_marginal {f : Assignment → K} {l : CString} {i a : ℕ}
    (hall : t.allVbls = Finset.range o.size) (hl : l ∈ t.graph.labels) (hi : i ∈ t.clique l)
    (ha : a ∈ o.dom i)
    (hf : ∀ x : Assignment, (∀ j ∈ t.clique l, x j ∈ o.dom j) →
      f x = sumOut o.dom (t.allVbls \ t.clique l) this.product x) :
    sumOut o.dom (t.clique l \ {i}) f (fun _ => a) = this.marginal i a := by
  have hsub : t.clique l ⊆ Finset.range o.size := by
    rw [← hall]
    exact Finset.subset_biUnion_of_mem t.clique (List.mem_toFinset.mpr hl)
  have hdisjoint : Disjoint (t.clique l \ {i}) (t.allVbls \ t.clique l) :=
    Finset.disjoint_sdiff.mono_left Finset.sdiff_subset
  have hunion : t.clique l \ {i} ∪ t.allVbls \ t.clique l = Finset.range o.size \ {i} := by
    rw [hall]
    ext j
    simp only [Finset.mem_union, Finset.mem_sdiff, Finset.mem_singleton]
    constructor
    · rintro (⟨hj, hne⟩ | ⟨hj, hnot⟩)
      · exact ⟨hsub hj, hne⟩
      · exact ⟨hj, fun heq => hnot (heq ▸ hi)⟩
    · rintro ⟨hj, hne⟩
      by_cases hmem : j ∈ t.clique l
      · exact Or.inl ⟨hmem, hne⟩
      · exact Or.inr ⟨hj, hmem⟩
  calc sumOut o.dom (t.clique l \ {i}) f (fun _ => a)
      = sumOut o.dom (t.clique l \ {i})
          (sumOut o.dom (t.allVbls \ t.clique l) this.product) (fun _ => a) := by
        apply sumOut_congr
        intro z hz
        rw [mem_extensions] at hz
        apply hf
        intro j hj
        by_cases heq : j = i
        · subst heq
          rw [hz.2 j (by simp)]
          exact ha
        · exact hz.1 j (Finset.mem_sdiff.mpr ⟨hj, by simpa using heq⟩)
    _ = sumOut o.dom (Finset.range o.size \ {i}) this.product (fun _ => a) := by
        rw [← sumOut_union hdisjoint, hunion]
    _ = this.marginal i a := rfl

/-- What a network and the ordering of its vertices have to be like. -/
structure Favourable (qsort : QSort) (this : BNet o K) (vo : VertexOrdering) : Prop where
  several : 1 < o.size
  fits : ∀ A ∈ elimFamilies this.tables vo,
    ((∏ i ∈ A, (o.vbl i).cardinality : ℕ) : ℤ) ≤ CInt.intMax
  order : HasRIOrder (elimFamilies this.tables vo)
  central : Central qsort (elimFamilies this.tables vo)

omit [Field K] [LinearOrder K] [IsStrictOrderedRing K] in
/-- The cliques are elimination families. -/
theorem Built.cliquesFit (hbuilt : this.Built vo t)
    (hfits : ∀ A ∈ elimFamilies this.tables vo,
      ((∏ i ∈ A, (o.vbl i).cardinality : ℕ) : ℤ) ≤ CInt.intMax) : IntTables.CliquesFit t := by
  intro l hl
  obtain ⟨i, hi, heq⟩ := hbuilt.mem l hl
  have hmem : t.clique l ∈ elimFamilies this.tables vo :=
    heq ▸ List.mem_map_of_mem (List.mem_range.mpr hi)
  have hle := hfits _ hmem
  unfold VariableSet.FitsInt
  rw [VariableSet.getCardinality_eq_prod]
  exact hle

/-- The run of a network whose tree is a star with proper separators. -/
theorem Valid.exists_passes (h : this.Valid) (state : Potentials o K) (hvo : this.IsOrdering vo)
    (hbuilt : this.Built vo t) (hri : t.HasRunningIntersection) (hproper : t.ProperSeparators)
    (hfits : IntTables.CliquesFit t) {root : CString} (hroot : t.graph.labels.head? = some root)
    (hstar : IsStar t root) :
    ∃ s₀ s₂ b, this.initializePotentialsInt t state = some s₀ ∧
      (IntTables.collectEvidence (plain K) t s₀).bind (IntTables.distributeEvidence (plain K) t) =
        some s₂ ∧ Represents t s₂ b ∧
      ∀ l ∈ t.graph.labels, ∀ x : Assignment, (∀ i ∈ t.clique l, x i ∈ o.dom i) →
        b.clique l x = sumOut o.dom (t.allVbls \ t.clique l) this.product x := by
  have htree := hbuilt.isTree
  have hpots := h.pots hvo hbuilt
  obtain ⟨R⟩ := htree.isTreeOn.exists_rooting (List.mem_of_mem_head? hroot)
  obtain ⟨ms, hms⟩ := exists_collects (K := K) htree hri hproper hroot R
  obtain ⟨s₀, hs₀, hrep₀⟩ := represents_initializePotentials h.discrete
    (fun p hp => (hpots p hp).1) t state
  obtain ⟨s₁, s₂, hs₁, hs₂, hrep⟩ := hms.passes htree hproper hroot hrep₀
  refine ⟨s₀, s₂, _, ?_, ?_, hrep, fun l hl x hx => ?_⟩
  · unfold initializePotentialsInt
    rw [IntTables.initializePotentialsIntWith_of_fits h.discrete hfits hbuilt.separators]
    exact hs₀
  · rw [IntTables.passes_of_fits h.discrete hfits hbuilt.separators htree hroot hrep₀.shaped]
    show (s₀.collectEvidence t).bind _ = some s₂
    rw [hs₁]
    exact hs₂
  · rw [hms.exact hstar hri htree hproper hrep₀.isScoped (sep_foldl_enter _ _)
      (nonneg_foldl_enter (fun p hp => (hpots p hp).2.2)
        ⟨fun _ _ => zero_le_one, fun _ _ => zero_le_one⟩) hl hx]
    congr 1
    funext z
    exact prod_foldl_enter_pots (fun p hp => (hpots p hp).2.1) z

/-- **End to end.** -/
theorem Valid.exact (h : this.Valid) (qsort : QSort) (state : Potentials o K)
    (hssw : this.stateSpaceWeightedElimOrdering qsort = some vo) (hvo : this.IsOrdering vo)
    (hfav : this.Favourable qsort vo) : this.Exact qsort state := by
  obtain ⟨t, root, ht, hbuilt, hroot, hstar, hproper⟩ := hfav.central.isStar h.isCreated
    h.distinct h.spaceFree hvo hfav.order (Nat.lt_of_succ_lt hfav.several)
  have hcover : ∀ i < o.size, ∃ l ∈ t.graph.labels, i ∈ t.clique l := fun i hi =>
    hbuilt.exists_mem_clique hvo h.isCreated hi
  have hri := hbuilt.hasRunningIntersection_iff.mpr hfav.order
  have hfits := hbuilt.cliquesFit hfav.fits
  obtain ⟨s₀, s₂, b, hs₀, hs₂, hrep, hb⟩ :=
    h.exists_passes state hvo hbuilt hri hproper hfits hroot hstar
  refine ⟨t, s₂, ?_, fun i hi p hp => ?_⟩
  · obtain ⟨s₁, hs₁, hs₂⟩ := Option.bind_eq_some_iff.mp hs₂
    unfold inferInt
    simp only [hssw, ht, hs₀, hs₁, hs₂, Option.bind_eq_bind, Option.bind_some]
    rfl
  · obtain ⟨l, hl, rfl, hmem⟩ := (mem_allContClqPot (h.distinct.getVariableRank_vbl hi)).mp hp
    rw [hrep.shaped.clique l hl] at hmem
    have hcard := hbuilt.isTree.one_lt_card hproper hfav.several hcover hl
    obtain ⟨entries, hentries, hlen, hget⟩ :=
      hrep.sumMarginTabularSingleVbl h.distinct h.discrete hfits hl hmem hcard
    refine ⟨entries, hentries, hlen, fun a ha => ?_⟩
    rw [hget a ha, sumOut_marginal (hbuilt.allVbls_eq hvo h.isCreated) hl hmem
      (VariableOrdering.mem_dom.mpr ha) (hb l hl)]

end Valid

/-! ## A star -/

/-- Networks over the four binary variables with uniform tables. -/
theorem valid_of_uniform {tables : List (CPT chainOrdering ℚ)}
    {obs : List (Observation chainOrdering ℚ)} {bn : BNet chainOrdering ℚ}
    (hrun : createList2 tables obs = some bn) (hacyclic : bn.Acyclic)
    (htables : ∀ table ∈ tables, ∃ parents, ∃ v ∈ chainOrdering.vbls,
      table = uniformTable chainOrdering parents v ∧ table.allvbls.vars = table.family)
    (hobs : ∀ ob ∈ obs, ∃ v ∈ chainOrdering.vbls, ∃ value,
      Observation.create ((VariableSet.create chainOrdering).add v) value = some ob) :
    bn.Valid := by
  have hbn : bn.tables = tables ∧ bn.obs = obs := by
    obtain ⟨g, -, rfl⟩ := Option.map_eq_some_iff.mp hrun
    exact ⟨rfl, rfl⟩
  obtain ⟨rfl, rfl⟩ := hbn
  refine ⟨hrun, by decide, by decide, by decide, hacyclic, fun table htable => ?_,
    fun table htable => ?_, fun table htable => ?_, fun table htable => ?_, hobs⟩ <;>
    obtain ⟨parents, v, hv, heq, hfamily⟩ := htables table htable
  · rw [heq]
    exact hv
  · rw [heq]
    exact Pot.sized_createTabular (List.length_replicate ..)
  · exact hfamily
  · rw [heq]
    intro a ha
    rw [List.eq_of_mem_replicate ha]
    exact one_half_pos.le

/-- A network in which the first variable is the only parent of the others. -/
def forkTables : List (CPT chainOrdering ℚ) :=
  let table parents i := uniformTable chainOrdering (parents.map chainOrdering.vbl)
    (chainOrdering.vbl i)
  [table [] 0, table [0] 1, table [0] 2, table [0] 3]

/-- The fork with `c` observed. -/
def forkNetwork : BNet chainOrdering ℚ :=
  (createList2 forkTables [chainObservation]).getD ⟨[], [], Graph.create [] true⟩

/-- The ordering of the fork's vertices. -/
def forkVertices : VertexOrdering := ⟨[['a'], ['d'], ['c'], ['b']]⟩

/-- The elimination tree of the fork, a star of three cliques. -/
def forkTree : ElimTree chainOrdering :=
  (forkNetwork.buildElimTree QSort.insertion forkVertices).getD (ElimTree.empty chainOrdering)

/-- What the program makes of the fork. -/
theorem computed_forkTree :
    forkNetwork.stateSpaceWeightedElimOrdering QSort.insertion = some forkVertices ∧
      forkTree.graph.labels =
        [['a', ' ', 'b', ' '], ['a', ' ', 'c', ' '], ['a', ' ', 'd', ' ']] ∧
      forkTree.graph.edgeList = [Edge.create ['a', ' ', 'd', ' '] ['a', ' ', 'b', ' '],
        Edge.create ['a', ' ', 'c', ' '] ['a', ' ', 'b', ' ']] ∧
      ∀ e ∈ forkTree.graph.edgeList, (forkTree.separatorOf e).Nonempty ∧
        forkTree.separatorOf e ⊂ forkTree.clique e.src ∧
        forkTree.separatorOf e ⊂ forkTree.clique e.sink := by
  decide

theorem valid_forkNetwork : forkNetwork.Valid := by
  have hpairs : ∀ p ∈ parentPairs forkTables,
      p.1 ∈ chainOrdering.labels ∧ p.2 ∈ chainOrdering.labels := by decide
  obtain ⟨bn, hrun, -, htables, -⟩ := created_of_tables [chainObservation] hpairs
  have heq : forkNetwork = bn := by
    unfold forkNetwork
    rw [hrun, Option.getD_some]
  rw [heq]
  refine valid_of_uniform hrun ⟨fun l => if l = ['a'] then 0 else 1, ?_⟩ ?_ ?_
  · rw [htables]
    decide
  · have hfamily : ∀ table ∈ forkTables, table.allvbls.vars = table.family := by decide
    intro table htable
    have hvars := hfamily table htable
    simp only [forkTables, List.mem_cons, List.not_mem_nil, or_false] at htable
    rcases htable with rfl | rfl | rfl | rfl
    all_goals exact ⟨_, _, VariableOrdering.vbl_mem (by decide), rfl, hvars⟩
  · intro ob hob
    rw [List.mem_singleton.mp hob]
    exact ⟨chainOrdering.vbl 2, VariableOrdering.vbl_mem (by decide), 1, rfl⟩

end BNet

end JunctionBox
