import JunctionBox.Foundations.Hearing
import JunctionBox.Inference.Marginals
import JunctionBox.Inference.Repetition
import JunctionBox.Inference.Schedule

/-!
# Messages in any order

`MessagePass` may be called over any edge of the tree, in either direction, as
often as one likes.  From the state of `BNet_InitializePotentials` the tables
are then described without division (`passMessages_letters`): a clique holds its
initial table times the letters it has received.

* `passMessages_exact_iff`: a clique ends with the marginal of the product of
  the initial tables, whatever these are, if and only if the run goes through
  the way from every other clique to it, in order;
* `passMessages_calibrated_iff`: the tree is calibrated if and only if this holds
  of all cliques, and then no further message changes anything
  (`passMessages_stationary`);
* `collectEvidence_eq_of_collectsTo`: every schedule that collects to the first
  vertex leaves the tables of `BNet_CollectEvidence`;
* `rounds_exact_iff`: repeating `BNet_CollectEvidence` and
  `BNet_DistributeEvidence` is of no use to the cliques that one round leaves
  behind.
-/

namespace JunctionBox

open Hypertree Propagation SimpleGraph SumOut

namespace ElimTree

variable {o : VariableOrdering} {t : ElimTree o} {m : Message CString Edge}

/-- The letters of the tree: one for each direction of each edge. -/
def letters (t : ElimTree o) : Finset (Message CString Edge) :=
  (Potentials.bothWays t.graph).toFinset

theorem mem_letters : m ∈ t.letters ↔ t.Along m := by
  unfold letters
  rw [List.mem_toFinset]
  refine ⟨Potentials.along_of_mem_bothWays, fun h => List.mem_flatMap.mpr ⟨m.sep, h.mem, ?_⟩⟩
  rcases Sym2.eq_iff.mp h.ends with ⟨hsrc, hsink⟩ | ⟨hsrc, hsink⟩
  · refine List.mem_cons_of_mem _ (List.mem_singleton.mpr ?_)
    rw [hsrc, hsink]
  · rw [hsrc, hsink]
    exact List.mem_cons_self ..

/-- Two letters from one clique to another go over the same edge. -/
theorem IsTree.sep_eq_of_ends (htree : t.IsTree) {m' : Message CString Edge} (hm : t.Along m)
    (hm' : t.Along m') (hends : s(m.sender, m.receiver) = s(m'.sender, m'.receiver)) :
    m.sep = m'.sep := htree.simple _ hm.mem _ hm'.mem (by rw [hm.ends, hm'.ends, hends])

theorem edgeLetters_letters (htree : t.IsTree) :
    EdgeLetters t.graph.skeleton Edge.ends t.letters where
  adj _ hm := (mem_letters.mp hm).adj htree
  ends_eq _ hm := (mem_letters.mp hm).ends
  exists_mem {u v} hadj := by
    obtain ⟨-, e, he, hends⟩ := hadj
    exact ⟨⟨v, u, e⟩, mem_letters.mpr ⟨he, hends⟩, rfl, rfl⟩
  eq_of_ends m hm m' hm' hsender hreceiver := by
    have hsep := htree.sep_eq_of_ends (mem_letters.mp hm) (mem_letters.mp hm')
      (by rw [hsender, hreceiver])
    cases m
    cases m'
    simp only at hsender hreceiver hsep
    rw [hsender, hreceiver, hsep]

theorem network_letters (htree : t.IsTree) (hproper : t.ProperSeparators) :
    Network t.clique t.separatorOf t.letters where
  fits m hm := by
    have halong := mem_letters.mp hm
    exact ⟨(halong.adj htree).ne, (hproper.sender halong).subset,
      (hproper.receiver halong).subset⟩
  reply _ hm := mem_letters.mpr (mem_letters.mp hm).reply
  sep_eq m hm m' hm' hsep := by
    have hends : s(m'.sender, m'.receiver) = s(m.sender, m.receiver) := by
      rw [← (mem_letters.mp hm').ends, ← (mem_letters.mp hm).ends, hsep]
    rcases Sym2.eq_iff.mp hends with ⟨hsender, hreceiver⟩ | ⟨hsender, hreceiver⟩
    · exact Or.inl ((edgeLetters_letters htree).eq_of_ends m' hm' m hm hsender hreceiver)
    · exact Or.inr ((edgeLetters_letters htree).eq_of_ends m' hm' _
        (mem_letters.mpr (mem_letters.mp hm).reply) hsender hreceiver)

end ElimTree

namespace Potentials

open ElimTree

variable {o : VariableOrdering} {K : Type} [Field K] [DecidableEq K] {t : ElimTree o}
variable {ms : List (Message CString Edge)} {k l : CString}

/-- The values of some variables, and zero for the others. -/
theorem exists_complete (hpos : o.Discrete) {U : Finset ℕ} {x : Assignment}
    (hx : ∀ i ∈ U, x i ∈ o.dom i) : ∃ x', o.Complete x' ∧ ∀ i ∈ U, x' i = x i := by
  refine ⟨fun i => if i ∈ U then x i else 0, fun i hi => ?_, fun i hi => if_pos hi⟩
  by_cases hU : i ∈ U
  · simp only [if_pos hU]
    exact hx i hU
  · simp only [if_neg hU]
    exact complete_zero hpos i hi

omit [Field K] [DecidableEq K] in
/-- Tables of factors that agree on the complete assignments are the same. -/
theorem eq_of_represents_of_complete (hpos : o.Discrete) {p q : Pot o K} {f g : Assignment → K}
    (hp : p.Represents f) (hq : q.Represents g) (hvbls : p.vbls = q.vbls)
    (hf : DependsOn f (p.vbls.vars : Set ℕ)) (hg : DependsOn g (p.vbls.vars : Set ℕ))
    (h : ∀ x, o.Complete x → f x = g x) : p = q := by
  have hq' : q.Represents f := by
    refine ⟨hq.sized, fun x hx => ?_⟩
    obtain ⟨x', hx', hsame⟩ := exists_complete hpos (hvbls ▸ hx : p.vbls.InRange x)
    rw [hq.entry_eq x hx, hg fun i hi => (hsame i hi).symm, ← h x' hx', hf hsame]
  exact hp.eq hq' hvbls

omit [Field K] [DecidableEq K] in
theorem Represents.eq_of_complete (hpos : o.Discrete) {s s' : Potentials o K}
    {b b' : Beliefs CString Edge ℕ ℕ K} (h : Represents t s b) (h' : Represents t s' b')
    (hclique : ∀ k x, o.Complete x → b.clique k x = b'.clique k x)
    (hsep : ∀ e ∈ t.graph.edgeList, ∀ x, o.Complete x → b.sep e x = b'.sep e x) :
    (∀ l ∈ t.graph.labels, s.clique l = s'.clique l) ∧
      ∀ e ∈ t.graph.edgeList, s.sep e.srcSink = s'.sep e.srcSink := by
  refine ⟨fun l hl => ?_, fun e he => ?_⟩
  · have hvbls := h.shaped.clique l hl
    refine eq_of_represents_of_complete hpos (h.clique l hl) (h'.clique l hl)
      (hvbls.trans (h'.shaped.clique l hl).symm) ?_ ?_ (hclique l)
    · rw [hvbls]
      exact h.isScoped.clique l
    · rw [hvbls]
      exact h'.isScoped.clique l
  · have hvbls := h.shaped.sep e he
    refine eq_of_represents_of_complete hpos (h.sep e he) (h'.sep e he)
      (hvbls.trans (h'.shaped.sep e he).symm) ?_ ?_ (hsep e he)
    · rw [hvbls]
      exact h.isScoped.sep e
    · rw [hvbls]
      exact h'.isScoped.sep e

section Ordered

variable [LinearOrder K] [IsStrictOrderedRing K]

/-- No table of a clique has a negative entry. -/
def NonnegTables (t : ElimTree o) (this : Potentials o K) : Prop :=
  ∀ l ∈ t.graph.labels, ∀ a ∈ (this.clique l).tabData, 0 ≤ a

theorem nonnegTables_ones (t : ElimTree o) : NonnegTables t (ones t : Potentials o K) :=
  fun l hl _ ha => (eq_of_mem_tabData ((represents_ones t).clique l hl) ha) ▸ zero_le_one

omit [DecidableEq K] in
theorem factors_start {this : Potentials o K} (h : Ready t this) (hnonneg : NonnegTables t this) :
    Factors t.clique (start t this).clique where
  nonneg l x := by
    by_cases hl : l ∈ t.graph.labels
    · rw [start_clique hl]
      exact val_nonneg (hnonneg l hl) x
    · simp only [start, if_neg hl, zero_le_one]
  reads := h.represents.isScoped.clique

theorem mem_letters_of_along (hms : ∀ m ∈ ms, t.Along m) : ∀ m ∈ ms, m ∈ t.letters := fun m hm =>
  mem_letters.mpr (hms m hm)

/-- The letters after a run from the tables of `this`. -/
noncomputable def lettersAfter (t : ElimTree o) (this : Potentials o K)
    (ms : List (Message CString Edge)) : Message CString Edge → Assignment → K :=
  sendAll t.letters o.dom t.clique t.separatorOf (start t this).clique ms fun _ _ => 1

omit [DecidableEq K] [LinearOrder K] [IsStrictOrderedRing K] in
theorem settled_lettersAfter (t : ElimTree o) (this : Potentials o K)
    (ms : List (Message CString Edge)) :
    Settled t.letters o.dom t.clique t.separatorOf (start t this).clique
      (informed t.letters ms) (lettersAfter t this ms) := settled_sendAll ms _

/-- A run mirrors its letters. -/
theorem Ready.mirrors (htree : t.IsTree) (hproper : t.ProperSeparators)
    (hms : ∀ m ∈ ms, t.Along m) {this : Potentials o K} (h : Ready t this)
    (hnonneg : NonnegTables t this) :
    ∃ s, this.passMessages (plain K) ms = some s ∧
      Represents t s (passAll o.dom t.clique t.separatorOf ms (start t this)) ∧
      Mirrors t.letters o.dom t.clique (start t this).clique
        (passAll o.dom t.clique t.separatorOf ms (start t this)) (lettersAfter t this ms) ∧
      Sound t.letters o.dom t.clique t.separatorOf (start t this).clique
        (lettersAfter t this ms) := by
  obtain ⟨s, hrun, hrep⟩ := h.represents.passMessages hproper hms
  obtain ⟨hmirrors, hsound⟩ := (mirrors_one rfl rfl).passAll (factors_start h hnonneg)
    (network_letters htree hproper) (mem_letters_of_along hms) sound_one
  exact ⟨s, hrun, hrep, hmirrors, hsound⟩

/-- **Messages in any order are letters without division**: after any calls of `MessagePass`
over edges of a tree a clique's table is its initial one times the letters it has received, and
a separator's table the product of the two letters over it, where each letter was last written
from the sender's initial table and the letters that its other neighbours had sent by then. -/
theorem passMessages_letters (htree : t.IsTree) (hproper : t.ProperSeparators)
    (hms : ∀ m ∈ ms, t.Along m) {this : Potentials o K} (h : Ready t this)
    (hnonneg : NonnegTables t this) :
    ∃ s, this.passMessages (plain K) ms = some s ∧ ∀ x, o.Complete x →
      (∀ l ∈ t.graph.labels, (s.clique l).entry x = some ((this.clique l).val x *
        ∏ m ∈ inbound t.letters l, lettersAfter t this ms m x)) ∧
      ∀ m, t.Along m → (s.sep m.sep.srcSink).entry x =
        some (lettersAfter t this ms m x * lettersAfter t this ms m.reply x) := by
  obtain ⟨s, hrun, hrep, hmirrors, -⟩ := h.mirrors htree hproper hms hnonneg
  refine ⟨s, hrun, fun x hx => ⟨fun l hl => ?_, fun m hm => ?_⟩⟩
  · rw [(hrep.clique l hl).entry_eq x (VariableSet.inRange_of_complete _ hx),
      hmirrors.clique l x (inDomain_of_complete t hx), start_clique hl]
  · rw [(hrep.sep _ hm.mem).entry_eq x (VariableSet.inRange_of_complete _ hx),
      hmirrors.sep m (mem_letters.mpr hm) x (inDomain_of_complete t hx)]

open BNet in
theorem passMessages_letters_chain :
    let t := chainTree chainVertices
    ∃ s, (ones t : Potentials chainOrdering ℚ).passMessages (plain ℚ) (bothWays t.graph) = some s ∧
      ∀ x, chainOrdering.Complete x →
        (∀ l ∈ t.graph.labels, (s.clique l).entry x = some (((ones t).clique l).val x *
          ∏ m ∈ inbound t.letters l, lettersAfter t (ones t) (bothWays t.graph) m x)) ∧
        ∀ m, t.Along m → (s.sep m.sep.srcSink).entry x =
          some (lettersAfter t (ones t) (bothWays t.graph) m x *
            lettersAfter t (ones t) (bothWays t.graph) m.reply x) :=
  passMessages_letters (chainTree_isJunctionTree chainVertices (List.Perm.refl _) (by decide)).1
    properSeparators_chainTree (fun _ hm => along_of_mem_bothWays hm)
    ((represents_ones _).ready rfl) (nonnegTables_ones _)

/-! ## Exact cliques -/

/-- In `s` the clique `k` holds the marginal of the product of the tables of `this`. -/
def MarginalAt (t : ElimTree o) (this s : Potentials o K) (k : CString) : Prop :=
  ∀ x, (s.clique k).vbls.InRange x → (s.clique k).entry x =
    some (sumOut o.dom (t.allVbls \ t.clique k)
      (fun z => (t.graph.labels.map fun l => (this.clique l).val z).prod) x)

omit [DecidableEq K] [LinearOrder K] [IsStrictOrderedRing K] in
/-- The product of the initial tables, as a product of factors. -/
theorem prod_start (t : ElimTree o) (this : Potentials o K) :
    (fun z => ∏ l ∈ t.graph.labels.toFinset, (start t this).clique l z) =
      fun z => (t.graph.labels.map fun l => (this.clique l).val z).prod := by
  funext z
  rw [List.prod_toFinset _ t.graph.labels_nodup]
  exact congrArg List.prod (List.map_congr_left fun l hl => by rw [start_clique hl])

omit [DecidableEq K] [LinearOrder K] [IsStrictOrderedRing K] in
/-- A clique is a marginal if its factor is. -/
theorem Represents.marginalAt (hpos : o.Discrete) {this s : Potentials o K}
    {b : Beliefs CString Edge ℕ ℕ K} (hthis : Ready t this) (h : Represents t s b)
    (hk : k ∈ t.graph.labels)
    (hexact : ∀ x, o.Complete x → b.clique k x = sumOut o.dom (t.allVbls \ t.clique k)
      (fun z => ∏ l ∈ t.graph.labels.toFinset, (start t this).clique l z) x) :
    MarginalAt t this s k := by
  intro x hx
  have hvbls := h.shaped.clique k hk
  rw [hvbls] at hx
  obtain ⟨x', hx', hsame⟩ := exists_complete (U := t.clique k) hpos hx
  have hsum : DependsOn (sumOut o.dom (t.allVbls \ t.clique k) fun z =>
      ∏ l ∈ t.graph.labels.toFinset, (start t this).clique l z) (t.clique k : Set ℕ) := by
    refine (dependsOn_sumOut (dependsOn_prod hthis.represents.isScoped.clique _) _).mono ?_
    intro i hi
    rw [Finset.mem_coe, Finset.mem_sdiff, Finset.mem_sdiff, not_and, not_not] at hi
    exact hi.2 hi.1
  rw [(h.clique k hk).entry_eq x (hvbls ▸ hx), ← prod_start,
    h.isScoped.clique k fun i hi => (hsame i hi).symm, hexact x' hx', hsum hsame]

omit [Field K] [DecidableEq K] [LinearOrder K] [IsStrictOrderedRing K] in
/-- Another table on one clique. -/
theorem Represents.update_clique {s : Potentials o K} {b : Beliefs CString Edge ℕ ℕ K}
    (h : Represents t s b) {p : Pot o K} {f : Assignment → K}
    (hvbls : p.vbls = (t.elimSet l).toVariableSet) (hp : p.Represents f)
    (hf : DependsOn f (t.clique l : Set ℕ)) :
    Represents t { s with clique := Function.update s.clique l p }
      { b with clique := Function.update b.clique l f } := by
  have hclique : ∀ k, (k = l ∧ Function.update s.clique l p k = p ∧
      Function.update b.clique l f k = f) ∨ (Function.update s.clique l p k = s.clique k ∧
      Function.update b.clique l f k = b.clique k) := by
    intro k
    by_cases hk : k = l
    · subst hk
      exact Or.inl ⟨rfl, Function.update_self .., Function.update_self ..⟩
    · exact Or.inr ⟨Function.update_of_ne hk .., Function.update_of_ne hk ..⟩
  refine ⟨⟨fun k hk => ?_, h.shaped.sep, h.shaped.margMemo, h.shaped.mulMemo⟩,
    ⟨fun k => ?_, h.isScoped.sep⟩, fun k hk => ?_, h.sep⟩
  · rcases hclique k with ⟨rfl, hpot, -⟩ | ⟨hpot, -⟩
    · exact (congrArg Pot.vbls hpot).trans hvbls
    · exact (congrArg Pot.vbls hpot).trans (h.shaped.clique k hk)
  · show DependsOn (Function.update b.clique l f k) _
    rcases hclique k with ⟨rfl, -, hfactor⟩ | ⟨-, hfactor⟩
    · rw [hfactor]
      exact hf
    · rw [hfactor]
      exact h.isScoped.clique k
  · show (Function.update s.clique l p k).Represents (Function.update b.clique l f k)
    rcases hclique k with ⟨-, hpot, hfactor⟩ | ⟨hpot, hfactor⟩
    · rw [hpot, hfactor]
      exact hp
    · rw [hpot, hfactor]
      exact h.clique k hk

/-- The state of ones with zeros on the clique `l`. -/
def zerosAt (K : Type) [Field K] [DecidableEq K] (t : ElimTree o) (l : CString) :
    Potentials o K :=
  let vbls := (t.elimSet l).toVariableSet
  let start := createAll (plain K) t (unset o K)
  { start with
    clique := Function.update start.clique l
      (Pot.createTabular vbls (List.replicate vbls.getCardinality 0)) }

/-- Its factors. -/
def nothingAt (K : Type) [Field K] (l : CString) : Beliefs CString Edge ℕ ℕ K where
  clique := Function.update (fun _ _ => 1) l fun _ => 0
  sep _ _ := 1

omit [LinearOrder K] [IsStrictOrderedRing K] in
theorem represents_zerosAt (t : ElimTree o) (l : CString) :
    Represents t (zerosAt K t l) (nothingAt K l) := by
  have hzeros : (Pot.createTabular (t.elimSet l).toVariableSet (List.replicate
      (t.elimSet l).toVariableSet.getCardinality (0 : K))).Represents fun _ => 0 := by
    refine ⟨Pot.sized_createTabular (List.length_replicate ..), fun x hx => ?_⟩
    exact List.getElem?_replicate_of_lt (VariableSet.index_lt hx)
  exact (represents_createAll (K := K) t (unset o K)).update_clique rfl hzeros
    fun x y _ => rfl

/-- The tables of two runs with the same letters. -/
theorem Ready.eq_of_lettersAfter (hpos : o.Discrete) (htree : t.IsTree)
    (hproper : t.ProperSeparators) {ms' : List (Message CString Edge)} (hms : ∀ m ∈ ms, t.Along m)
    (hms' : ∀ m ∈ ms', t.Along m) {this : Potentials o K} (h : Ready t this)
    (hnonneg : NonnegTables t this) (hsame : lettersAfter t this ms = lettersAfter t this ms') :
    ∃ s s', this.passMessages (plain K) ms = some s ∧
      this.passMessages (plain K) ms' = some s' ∧
      (∀ l ∈ t.graph.labels, s.clique l = s'.clique l) ∧
      ∀ e ∈ t.graph.edgeList, s.sep e.srcSink = s'.sep e.srcSink := by
  obtain ⟨s, hrun, hrep, hmirrors, -⟩ := h.mirrors htree hproper hms hnonneg
  obtain ⟨s', hrun', hrep', hmirrors', -⟩ := h.mirrors htree hproper hms' hnonneg
  refine ⟨s, s', hrun, hrun', hrep.eq_of_complete hpos hrep' (fun k x hx => ?_)
    fun e he x hx => ?_⟩
  · have hdom := inDomain_of_complete t hx
    rw [hmirrors.clique k x hdom, hmirrors'.clique k x hdom, hsame]
  · have hdom := inDomain_of_complete t hx
    have hm : (⟨e.sink, e.src, e⟩ : Message CString Edge) ∈ t.letters := mem_letters.mpr ⟨he, rfl⟩
    rw [hmirrors.sep _ hm x hdom, hmirrors'.sep _ hm x hdom, hsame]

omit [DecidableEq K] [LinearOrder K] [IsStrictOrderedRing K] in
theorem val_eq_zero {p : Pot o K} (h : ∀ a ∈ p.tabData, a = 0) (x : Assignment) : p.val x = 0 := by
  rw [Pot.val, Pot.entry]
  cases hget : p.tabData[p.vbls.index x]? with
  | none => rfl
  | some a => exact h a (List.mem_of_getElem? hget)

omit [DecidableEq K] [LinearOrder K] [IsStrictOrderedRing K] in
theorem nothingAt_of_ne {v : CString} (h : v ≠ l) : (nothingAt K l).clique v = fun _ => 1 := by
  simp only [nothingAt, Function.update_of_ne h]

omit [DecidableEq K] [LinearOrder K] [IsStrictOrderedRing K] in
@[simp] theorem nothingAt_self (l : CString) : (nothingAt K l).clique l = fun _ => 0 := by
  simp only [nothingAt, Function.update_self]

theorem factors_nothingAt (t : ElimTree o) (l : CString) :
    Factors t.clique (nothingAt K l).clique where
  nonneg v x := by
    by_cases hv : v = l
    · rw [hv, nothingAt_self]
    · rw [nothingAt_of_ne hv]
      exact zero_le_one
  reads v := (represents_zerosAt t l).isScoped.clique v

theorem nonnegTables_zerosAt (t : ElimTree o) (l : CString) : NonnegTables t (zerosAt K t l) := by
  intro v hv a ha
  have hrep := (represents_zerosAt (K := K) t l).clique v hv
  by_cases heq : v = l
  · rw [heq, nothingAt_self] at hrep
    exact (eq_of_mem_tabData hrep (heq ▸ ha)).ge
  · rw [nothingAt_of_ne heq] at hrep
    exact (eq_of_mem_tabData hrep ha) ▸ zero_le_one

/-- A run from zeros on `l` that leaves a zero on `k` has gone all the way. -/
theorem hasHeard_of_zerosAt (htree : t.IsTree) (hproper : t.ProperSeparators)
    (hms : ∀ m ∈ ms, t.Along m) {x : Assignment} (hx : InDomain o.dom t.clique x)
    (hzero : (passAll o.dom t.clique t.separatorOf ms (nothingAt K l)).clique k x = 0) :
    HasHeard t.graph.skeleton ms l k := by
  refine hasHeard_of_eq_zero (edgeLetters_letters htree) (network_letters htree hproper)
    htree.isTreeOn.acyclic (mem_letters_of_along hms) (factors_nothingAt t l) rfl
    (fun v hv x _ => ?_) hx hzero
  rw [nothingAt_of_ne hv]
  exact zero_lt_one

/-- Hearing can be tested by a run. -/
theorem hasHeard_of_run (hpos : o.Discrete) (htree : t.IsTree) (hproper : t.ProperSeparators)
    (hms : ∀ m ∈ ms, t.Along m) (hk : k ∈ t.graph.labels)
    (hrun : ((zerosAt K t l).passMessages (plain K) ms).bind
      (fun s => (s.clique k).entry fun _ => 0) = some 0) : HasHeard t.graph.skeleton ms l k := by
  obtain ⟨s, hs, hentry⟩ := Option.bind_eq_some_iff.mp hrun
  obtain ⟨s', hs', hrep⟩ := (represents_zerosAt (K := K) t l).passMessages hproper hms
  obtain rfl := Option.some.inj (hs.symm.trans hs')
  have hx := complete_zero hpos
  rw [(hrep.clique k hk).entry_eq _ (VariableSet.inRange_of_complete _ hx)] at hentry
  exact hasHeard_of_zerosAt htree hproper hms (inDomain_of_complete t hx) (Option.some.inj hentry)

/-- The marginals of a product with zeros on `l` are zero. -/
theorem Represents.hasHeard_of_marginalAt (hpos : o.Discrete) (htree : t.IsTree)
    (hproper : t.ProperSeparators) (hms : ∀ m ∈ ms, t.Along m) (hl : l ∈ t.graph.labels)
    (hk : k ∈ t.graph.labels) {s : Potentials o K}
    (h : Represents t s (passAll o.dom t.clique t.separatorOf ms (nothingAt K l)))
    (hmarginal : MarginalAt t (zerosAt K t l) s k) : HasHeard t.graph.skeleton ms l k := by
  have hx := complete_zero hpos
  have hentry := hmarginal _ (VariableSet.inRange_of_complete _ hx)
  have hproduct : (fun z => (t.graph.labels.map fun v => ((zerosAt K t l).clique v).val z).prod) =
      fun _ => 0 := by
    funext z
    refine List.prod_eq_zero (List.mem_map.mpr ⟨l, hl, val_eq_zero (fun a ha => ?_) z⟩)
    have hclique := (represents_zerosAt (K := K) t l).clique l hl
    rw [nothingAt_self] at hclique
    exact eq_of_mem_tabData hclique ha
  rw [hproduct, sumOut_const, mul_zero, (h.clique k hk).entry_eq _
    (VariableSet.inRange_of_complete _ hx)] at hentry
  exact hasHeard_of_zerosAt htree hproper hms (inDomain_of_complete t hx)
    (Option.some.inj hentry)

omit [DecidableEq K] in
theorem Represents.marginalAt_of_hasHeard (hpos : o.Discrete) (htree : t.IsTree)
    (hri : t.HasRunningIntersection) (hproper : t.ProperSeparators) (hms : ∀ m ∈ ms, t.Along m)
    (hk : k ∈ t.graph.labels) (hheard : ∀ l ∈ t.graph.labels, HasHeard t.graph.skeleton ms l k)
    {this s : Potentials o K} (hready : Ready t this) (hnonneg : NonnegTables t this)
    (h : Represents t s (passAll o.dom t.clique t.separatorOf ms (start t this))) :
    MarginalAt t this s k := by
  refine h.marginalAt hpos hready hk fun x hx => ?_
  exact exact_of_hasHeard (hri.isJunctionTree htree) (edgeLetters_letters htree)
    (network_letters htree hproper)
    (fun m hm => hri.separatorOf_eq htree hproper (mem_letters.mp hm))
    (fun l => List.mem_toFinset) hk (mem_letters_of_along hms) hheard
    hready.represents.isScoped (factors_start hready hnonneg) rfl (inDomain_of_complete t hx)

/-- **Who is exact.**  A clique of a junction tree holds the marginal of the product of the
initial tables after the calls `ms`, whatever the non-negative tables are, if and only if from
every clique the way to it is a subsequence of the calls. -/
theorem passMessages_exact_iff (hpos : o.Discrete) (htree : t.IsTree)
    (hri : t.HasRunningIntersection) (hproper : t.ProperSeparators) (hms : ∀ m ∈ ms, t.Along m)
    (hk : k ∈ t.graph.labels) :
    (∀ this : Potentials o K, Ready t this → NonnegTables t this →
      ∃ s, this.passMessages (plain K) ms = some s ∧ MarginalAt t this s k) ↔
    ∀ l ∈ t.graph.labels, HasHeard t.graph.skeleton ms l k := by
  constructor
  · intro hall l hl
    have hrep := represents_zerosAt (K := K) t l
    obtain ⟨s, hrun, hs⟩ := hrep.passMessages hproper hms
    obtain ⟨s', hrun', hmarginal⟩ := hall _ (hrep.ready rfl) (nonnegTables_zerosAt t l)
    obtain rfl := Option.some.inj (hrun.symm.trans hrun')
    exact hs.hasHeard_of_marginalAt hpos htree hproper hms hl hk hmarginal
  · intro hheard this h hnonneg
    obtain ⟨s, hrun, hs⟩ := h.represents.passMessages hproper hms
    exact ⟨s, hrun, hs.marginalAt_of_hasHeard hpos htree hri hproper hms hk hheard h hnonneg⟩

open BNet in
theorem labels_chainTree : (chainTree chainVertices).graph.labels =
    [['c', ' ', 'd', ' '], ['b', ' ', 'c', ' '], ['a', ' ', 'b', ' ']] := by
  decide

open BNet in
theorem passMessages_exact_iff_chain :
    let t := chainTree chainVertices
    (∀ this : Potentials chainOrdering ℚ, Ready t this → NonnegTables t this →
      ∃ s, this.passMessages (plain ℚ) (bothWays t.graph) = some s ∧
        MarginalAt t this s ['a', ' ', 'b', ' ']) ↔
    ∀ l ∈ t.graph.labels,
      HasHeard t.graph.skeleton (bothWays t.graph) l ['a', ' ', 'b', ' '] := by
  obtain ⟨htree, hri⟩ := chainTree_isJunctionTree chainVertices (List.Perm.refl _) (by decide)
  exact passMessages_exact_iff (by decide) htree hri properSeparators_chainTree
    (fun _ hm => along_of_mem_bothWays hm) (by rw [labels_chainTree]; decide)

/-! ## Calibrated trees -/

/-- Where everybody has heard from everybody all letters are final. -/
theorem letters_subset_informed (htree : t.IsTree) (hproper : t.ProperSeparators)
    (hms : ∀ m ∈ ms, t.Along m)
    (hheard : ∀ l ∈ t.graph.labels, ∀ k ∈ t.graph.labels, HasHeard t.graph.skeleton ms l k) :
    t.letters ⊆ informed t.letters ms := by
  intro m hm
  have hreceiver := (mem_letters.mp hm).receiver_mem
  exact mem_informed_of_hasHeard (edgeLetters_letters htree) (network_letters htree hproper)
    htree.isTreeOn (mem_letters_of_along hms) (fun l hl => hheard l hl _ hreceiver)
    (mem_inbound.mpr ⟨hm, rfl⟩)

theorem AtEnd.separatorOf_subset {e : Edge} {v : CString} (hv : AtEnd e v)
    (hproper : t.ProperSeparators) (he : e ∈ t.graph.edgeList) : t.separatorOf e ⊆ t.clique v := by
  rcases hv with rfl | rfl
  · exact (hproper.src e he).subset
  · exact (hproper.sink e he).subset

omit [DecidableEq K] in
/-- In a calibrated state a clique of zeros leaves nothing of its neighbours. -/
theorem Calibrated.eq_zero_of_adj {s : Potentials o K} {b : Beliefs CString Edge ℕ ℕ K}
    (hcal : Calibrated t s) (hproper : t.ProperSeparators) (hrep : Represents t s b)
    (hnonneg : Nonneg b) {u v : CString} (hadj : t.graph.skeleton.Adj u v)
    (hu : ∀ x, InDomain o.dom t.clique x → b.clique u x = 0) :
    ∀ x, InDomain o.dom t.clique x → b.clique v x = 0 := by
  intro x hx
  obtain ⟨-, e, he, hends⟩ := hadj
  have hcal' := hrep.calibrated_iff.mp hcal e he
  have hend : AtEnd e u ∧ AtEnd e v := by
    rcases Sym2.eq_iff.mp hends with ⟨rfl, rfl⟩ | ⟨rfl, rfl⟩
    · exact ⟨Or.inl rfl, Or.inr rfl⟩
    · exact ⟨Or.inr rfl, Or.inl rfl⟩
  have hdom : ∀ i ∈ t.separatorOf e, x i ∈ o.dom i := fun i hi =>
    hx v i (hend.2.separatorOf_subset hproper he hi)
  have hsep : b.sep e x = 0 := by
    rw [hcal' u hend.1 x hdom]
    exact Finset.sum_eq_zero fun z hz => hu z (inDomain_of_mem_extensions hx hz)
  rw [hcal' v hend.2 x hdom] at hsep
  exact eq_zero_of_sumOut_eq_zero (hnonneg.clique v)
    (fun i hi => hx v i (Finset.mem_sdiff.mp hi).1) hsep

omit [DecidableEq K] in
theorem Calibrated.eq_zero_of_reachable {s : Potentials o K} {b : Beliefs CString Edge ℕ ℕ K}
    (hcal : Calibrated t s) (hproper : t.ProperSeparators) (hrep : Represents t s b)
    (hnonneg : Nonneg b) {u v : CString} (hreach : t.graph.skeleton.Reachable u v)
    (hu : ∀ x, InDomain o.dom t.clique x → b.clique u x = 0) :
    ∀ x, InDomain o.dom t.clique x → b.clique v x = 0 := by
  obtain ⟨p⟩ := hreach
  induction p with
  | nil => exact hu
  | cons hadj _ ih => exact ih (hcal.eq_zero_of_adj hproper hrep hnonneg hadj hu)

/-- **When the tree is calibrated.**  A run calibrates the tree, whatever the non-negative
tables are, if and only if it goes through the way from every clique to every other. -/
theorem passMessages_calibrated_iff (hpos : o.Discrete) (htree : t.IsTree)
    (hproper : t.ProperSeparators) (hms : ∀ m ∈ ms, t.Along m) :
    (∀ this : Potentials o K, Ready t this → NonnegTables t this →
      ∃ s, this.passMessages (plain K) ms = some s ∧ Calibrated t s) ↔
    ∀ l ∈ t.graph.labels, ∀ k ∈ t.graph.labels, HasHeard t.graph.skeleton ms l k := by
  constructor
  · intro hall l hl k hk
    have hrep := represents_zerosAt (K := K) t l
    obtain ⟨s, hrun, hs⟩ := hrep.passMessages hproper hms
    obtain ⟨s', hrun', hcal⟩ := hall _ (hrep.ready rfl) (nonnegTables_zerosAt t l)
    obtain rfl := Option.some.inj (hrun.symm.trans hrun')
    have hnonneg : Nonneg (passAll o.dom t.clique t.separatorOf ms (nothingAt K l)) :=
      Nonneg.passAll ms ⟨(factors_nothingAt t l).nonneg, fun _ _ => zero_le_one⟩
    have hdom := inDomain_of_complete t (complete_zero hpos)
    refine hasHeard_of_zerosAt htree hproper hms hdom
      (hcal.eq_zero_of_reachable hproper hs hnonneg (htree.isTreeOn.reachable hl hk) ?_ _ hdom)
    exact fun x _ => passAll_clique_eq_zero ms (by rw [nothingAt_self])
  · intro hheard this hready hnonneg
    obtain ⟨s, hrun, hrep, hmirrors, hsound⟩ := hready.mirrors htree hproper hms hnonneg
    refine ⟨s, hrun, hrep.calibrated_iff.mpr fun e he v hv x hx => ?_⟩
    obtain ⟨m, hm, rfl, rfl⟩ : ∃ m, t.Along m ∧ m.sep = e ∧ m.sender = v := by
      rcases hv with rfl | rfl
      · exact ⟨⟨e.sink, e.src, e⟩, ⟨he, rfl⟩, rfl, rfl⟩
      · exact ⟨⟨e.src, e.sink, e⟩, ⟨he, Sym2.eq_swap⟩, rfl, rfl⟩
    obtain ⟨x', hx', hsame⟩ := exists_complete hpos hx
    have hdom := inDomain_of_complete t hx'
    have hfinal := letters_subset_informed htree hproper hms hheard (mem_letters.mpr hm)
    have hfixed := (settled_lettersAfter t this ms).fixed m hfinal
    have hmarginal := hmirrors.marginal hsound (network_letters htree hproper)
      (mem_letters.mpr hm) hdom
    calc (passAll o.dom t.clique t.separatorOf ms (start t this)).sep m.sep x
        = (passAll o.dom t.clique t.separatorOf ms (start t this)).sep m.sep x' :=
          hrep.isScoped.sep m.sep fun i hi => (hsame i hi).symm
      _ = lettersAfter t this ms m.reply x' * lettersAfter t this ms m x' := by
          rw [hmirrors.sep m (mem_letters.mpr hm) x' hdom, mul_comm]
      _ = marginal o.dom t.clique t.separatorOf m
            (passAll o.dom t.clique t.separatorOf ms (start t this)) x' := by
          rw [hmarginal]
          exact congrArg (lettersAfter t this ms m.reply x' * ·) (congrFun hfixed x')
      _ = marginal o.dom t.clique t.separatorOf m
            (passAll o.dom t.clique t.separatorOf ms (start t this)) x :=
          hrep.isScoped.marginal m hsame

open BNet in
theorem passMessages_calibrated_iff_chain :
    let t := chainTree chainVertices
    (∀ this : Potentials chainOrdering ℚ, Ready t this → NonnegTables t this →
      ∃ s, this.passMessages (plain ℚ) (bothWays t.graph) = some s ∧ Calibrated t s) ↔
    ∀ l ∈ t.graph.labels, ∀ k ∈ t.graph.labels,
      HasHeard t.graph.skeleton (bothWays t.graph) l k :=
  passMessages_calibrated_iff (by decide)
    (chainTree_isJunctionTree chainVertices (List.Perm.refl _) (by decide)).1
    properSeparators_chainTree fun _ hm => along_of_mem_bothWays hm

/-- Once everybody has heard from everybody, no further call changes a table. -/
theorem passMessages_stationary (hpos : o.Discrete) (htree : t.IsTree)
    (hproper : t.ProperSeparators) (hms : ∀ m ∈ ms, t.Along m)
    (hheard : ∀ l ∈ t.graph.labels, ∀ k ∈ t.graph.labels, HasHeard t.graph.skeleton ms l k)
    {this : Potentials o K} (h : Ready t this) (hnonneg : NonnegTables t this) :
    ∃ s, this.passMessages (plain K) ms = some s ∧
      ∀ ms' : List (Message CString Edge), (∀ m ∈ ms', t.Along m) →
        ∃ s', s.passMessages (plain K) ms' = some s' ∧
          (∀ l ∈ t.graph.labels, s'.clique l = s.clique l) ∧
          ∀ e ∈ t.graph.edgeList, s'.sep e.srcSink = s.sep e.srcSink := by
  obtain ⟨s, hrun, -⟩ := h.mirrors htree hproper hms hnonneg
  refine ⟨s, hrun, fun ms' hms' => ?_⟩
  have hall : ∀ m ∈ ms ++ ms', t.Along m := fun m hm =>
    (List.mem_append.mp hm).elim (hms m) (hms' m)
  have hsame : lettersAfter t this (ms ++ ms') = lettersAfter t this ms := by
    have hsettled := settled_lettersAfter t this ms
    unfold lettersAfter at hsettled ⊢
    rw [sendAll_append]
    exact hsettled.sendAll_eq fun m hm =>
      letters_subset_informed htree hproper hms hheard (mem_letters.mpr (hms' m hm))
  obtain ⟨s', s₁, hrun', hrun₁, hcliques, hseps⟩ :=
    h.eq_of_lettersAfter hpos htree hproper hall hms hnonneg hsame
  obtain rfl := Option.some.inj (hrun.symm.trans hrun₁)
  refine ⟨s', ?_, hcliques, hseps⟩
  have hsplit := passEach_append (messagePassWith (plain K)) ms ms' this
  unfold passMessages at hrun hrun' ⊢
  rw [hrun', hrun] at hsplit
  exact hsplit.symm

open BNet in
theorem passMessages_stationary_chain :
    let t := chainTree chainVertices
    let ms := bothWays t.graph ++ bothWays t.graph
    ∃ s, (ones t : Potentials chainOrdering ℚ).passMessages (plain ℚ) ms = some s ∧
      ∀ ms' : List (Message CString Edge), (∀ m ∈ ms', t.Along m) →
        ∃ s', s.passMessages (plain ℚ) ms' = some s' ∧
          (∀ l ∈ t.graph.labels, s'.clique l = s.clique l) ∧
          ∀ e ∈ t.graph.edgeList, s'.sep e.srcSink = s.sep e.srcSink := by
  intro t ms
  have htree := (chainTree_isJunctionTree chainVertices (List.Perm.refl _) (by decide)).1
  have hms : ∀ m ∈ ms, t.Along m := fun m hm =>
    (List.mem_append.mp hm).elim along_of_mem_bothWays along_of_mem_bothWays
  -- twice both ways over every edge is enough for a path of three cliques
  have hruns : ∀ l ∈ t.graph.labels, ∀ k ∈ t.graph.labels,
      ((zerosAt ℚ t l).passMessages (plain ℚ) ms).bind
        (fun s => (s.clique k).entry fun _ => 0) = some 0 := by decide +kernel
  exact passMessages_stationary (by decide) htree properSeparators_chainTree hms
    (fun l hl k hk => hasHeard_of_run (by decide) htree properSeparators_chainTree hms hk
      (hruns l hl k hk)) ((represents_ones _).ready rfl) (nonnegTables_ones _)

/-! ## Collecting in another order -/

/-- **The order of collection does not matter.**  Any calls that collect to the first vertex
leave the tables that `BNet_CollectEvidence` leaves. -/
theorem collectEvidence_eq_of_collectsTo (hpos : o.Discrete) (htree : t.IsTree)
    (hproper : t.ProperSeparators) {root : CString}
    (hroot : (VertexOrdering.default t.graph).vertices.head? = some root)
    (hcollects : CollectsTo t.graph.skeleton Edge.ends t.graph.edgeList root ms)
    {this : Potentials o K} (h : Ready t this) (hnonneg : NonnegTables t this) :
    ∃ s s', this.collectEvidence t = some s ∧ this.passMessages (plain K) ms = some s' ∧
      (∀ l ∈ t.graph.labels, s.clique l = s'.clique l) ∧
      ∀ e ∈ t.graph.edgeList, s.sep e.srcSink = s'.sep e.srcSink := by
  rw [VertexOrdering.vertices_default] at hroot
  have hmem := List.mem_of_mem_head? hroot
  have halong : ∀ {ms : List (Message CString Edge)},
      CollectsTo t.graph.skeleton Edge.ends t.graph.edgeList root ms → ∀ m ∈ ms, t.Along m :=
    fun h m hm => ⟨h.once.mem_iff.mp (List.mem_map_of_mem hm), h.ends_eq m hm⟩
  obtain ⟨root', ms₀, hroot', hrun₀, hcollects₀⟩ := collectsEvidence_of_reachable
    ⟨htree.isTreeOn.acyclic, htree.loopless, htree.simple⟩ hroot fun e he =>
      htree.isTreeOn.reachable hmem (Graph.ends_mem he).1
  rw [VertexOrdering.vertices_default, hroot] at hroot'
  obtain rfl := Option.some.inj hroot'
  obtain ⟨R⟩ := htree.isTreeOn.exists_rooting hmem
  have hsame : lettersAfter t this ms₀ = lettersAfter t this ms :=
    hcollects₀.sendAll_eq hcollects (edgeLetters_letters htree) (network_letters htree hproper)
      htree.isTreeOn R (fun m hm => (mem_letters.mp hm).mem)
      (mem_letters_of_along (halong hcollects₀)) (mem_letters_of_along (halong hcollects)) _
  obtain ⟨s, s', hrun, hrun', htables⟩ := h.eq_of_lettersAfter hpos htree hproper
    (halong hcollects₀) (halong hcollects) hnonneg hsame
  refine ⟨s, s', ?_, hrun', htables⟩
  unfold collectEvidence
  rw [hrun₀]
  exact hrun

open BNet in
theorem isTree_forkTree : forkTree.IsTree := by
  obtain ⟨vo, t, hssw, ht, -, hbuilt⟩ := valid_forkNetwork.exists_built QSort.insertion
  obtain rfl : vo = forkVertices := Option.some.inj (hssw.symm.trans computed_forkTree.1)
  have hfork : forkTree = t := by
    unfold forkTree
    rw [ht, Option.getD_some]
  rw [hfork]
  exact hbuilt.isTree

open BNet in
/-- The leaves of a star, in the order that the code does not choose. -/
theorem collectEvidence_eq_of_collectsTo_fork :
    let root : CString := ['a', ' ', 'b', ' ']
    let message (leaf : CString) : Message CString Edge := ⟨root, leaf, Edge.create leaf root⟩
    ∃ s s', (ones forkTree : Potentials chainOrdering ℚ).collectEvidence forkTree = some s ∧
      (ones forkTree).passMessages (plain ℚ)
        [message ['a', ' ', 'c', ' '], message ['a', ' ', 'd', ' ']] = some s' ∧
      (∀ l ∈ forkTree.graph.labels, s.clique l = s'.clique l) ∧
      ∀ e ∈ forkTree.graph.edgeList, s.sep e.srcSink = s'.sep e.srcSink := by
  intro root message
  set ms := [message ['a', ' ', 'c', ' '], message ['a', ' ', 'd', ' ']] with hms
  obtain ⟨-, hlabels, hedges, hproper⟩ := computed_forkTree
  have hends : ∀ m ∈ ms, m.sep ∈ forkTree.graph.edgeList ∧ m.receiver = root ∧
      m.sender ≠ root ∧ m.sep = Edge.create m.sender root := by
    rw [hedges]
    decide
  have hadj : ∀ m ∈ ms, forkTree.graph.skeleton.Adj root m.sender := fun m hm => by
    obtain ⟨hmem, -, hne, hsep⟩ := hends m hm
    exact ⟨hne.symm, m.sep, hmem, hsep ▸ Sym2.eq_swap⟩
  have hroot : (VertexOrdering.default forkTree.graph).vertices.head? = some root := by
    rw [VertexOrdering.vertices_default, hlabels]
    rfl
  refine collectEvidence_eq_of_collectsTo (by decide) isTree_forkTree
    ⟨fun e he => (hproper e he).1, fun e he => (hproper e he).2.1,
      fun e he => (hproper e he).2.2⟩ hroot
    ⟨by rw [hedges]; decide, fun m hm => ?_, fun m hm => ?_,
      fun before m after hsplit e he hsub => ?_⟩
    ((represents_ones _).ready rfl) (nonnegTables_ones _)
  · obtain ⟨-, hreceiver, -, hsep⟩ := hends m hm
    rw [hsep, hreceiver]
    rfl
  · rw [(hends m hm).2.1, dist_self, dist_eq_one_iff_adj.mpr (hadj m hm)]
  · -- the root is in no subtree of a leaf
    have hm : m ∈ ms := hsplit ▸ List.mem_append_right _ (List.mem_cons_self ..)
    have hsink : ∀ e ∈ forkTree.graph.edgeList, e.sink = root := by
      rw [hedges]
      decide
    have hmem : root ∈ e.ends := hsink e he ▸ Sym2.mem_mk_right ..
    have hnil := hsub root hmem Walk.nil
    rw [Walk.support_nil, List.mem_singleton] at hnil
    exact absurd hnil (hends m hm).2.2.1

/-! ## Repeating the two passes -/

/-- `n` rounds of `BNet_CollectEvidence` and `BNet_DistributeEvidence`. -/
def rounds (t : ElimTree o) : ℕ → Potentials o K → Option (Potentials o K)
  | 0, this => some this
  | n + 1, this => do
    let collected ← this.collectEvidence t
    let distributed ← collected.distributeEvidence t
    rounds t n distributed

/-- The calls of `n` rounds, where a round collects by `ms`. -/
def roundsOf (t : ElimTree o) (root : CString) (ms : List (Message CString Edge)) (n : ℕ) :
    List (Message CString Edge) :=
  (List.replicate n (ms ++ (inward t.graph root).map Message.reply)).flatten

theorem roundsOf_succ (t : ElimTree o) (root : CString) (ms : List (Message CString Edge))
    (n : ℕ) : roundsOf t root ms (n + 1) =
      ms ++ (inward t.graph root).map Message.reply ++ roundsOf t root ms n := by
  rw [roundsOf, List.replicate_succ, List.flatten_cons]
  rfl

section Rounds

variable {root : CString} {R : Rooting {l | l ∈ t.graph.labels} t.graph.skeleton root}

omit [LinearOrder K] [IsStrictOrderedRing K] in
theorem Collects.rounds (h : Collects (K := K) R ms) (htree : t.IsTree)
    (hproper : t.ProperSeparators) (hroot : t.graph.labels.head? = some root) (n : ℕ)
    {this : Potentials o K} {b : Beliefs CString Edge ℕ ℕ K} (hrep : Represents t this b) :
    ∃ s, rounds t n this = some s ∧
      Represents t s (passAll o.dom t.clique t.separatorOf (roundsOf t root ms n) b) := by
  induction n generalizing this b with
  | zero => exact ⟨this, rfl, hrep⟩
  | succ n ih =>
      obtain ⟨s₁, s₂, hcollect, hdistribute, hrep₂⟩ := h.passes htree hproper hroot hrep
      obtain ⟨s, hrun, hs⟩ := ih hrep₂
      refine ⟨s, ?_, ?_⟩
      · rw [Potentials.rounds, hcollect]
        simp only [Option.bind_eq_bind, Option.bind_some]
        rw [hdistribute]
        exact hrun
      · rw [roundsOf_succ, passAll_append, passAll_append]
        exact hs

omit [LinearOrder K] [IsStrictOrderedRing K] in
/-- In a round everybody sends to the parent, or the root answers. -/
theorem Collects.mem_roundsOf (h : Collects (K := K) R ms) (htree : t.IsTree) {n : ℕ} :
    ∀ m ∈ roundsOf t root ms n, t.Along m ∧ (Upward R Edge.ends m ∨ m.sender = root) := by
  intro m hm
  obtain ⟨passes, hpasses, hm⟩ := List.mem_flatten.mp hm
  rw [List.eq_of_mem_replicate hpasses] at hm
  rcases List.mem_append.mp hm with hm | hm
  · exact ⟨(h.upward m hm).2, Or.inl (h.upward m hm).1⟩
  · obtain ⟨m', hm', rfl⟩ := List.mem_map.mp hm
    obtain ⟨halong, hreceiver, -⟩ := mem_inward htree hm'
    exact ⟨halong.reply, Or.inr hreceiver⟩

/-- A collection brings everything to the root. -/
theorem Collects.hasHeard (h : Collects (K := K) R ms) (hpos : o.Discrete) (htree : t.IsTree)
    (hproper : t.ProperSeparators) (hl : l ∈ t.graph.labels) :
    HasHeard t.graph.skeleton ms l root := by
  have hx := inDomain_of_complete t (complete_zero hpos)
  refine hasHeard_of_zerosAt (K := K) htree hproper (fun m hm => (h.upward m hm).2) hx ?_
  rw [h.absorbs.clique_root (represents_zerosAt t l).isScoped fun m _ => rfl]
  refine Finset.sum_eq_zero fun z _ => Finset.prod_eq_zero (List.mem_toFinset.mpr hl) ?_
  rw [nothingAt_self]

/-- And the answers bring it to the neighbours of the root. -/
theorem hasHeard_reply (htree : t.IsTree)
    (hheard : ∀ l ∈ t.graph.labels, HasHeard t.graph.skeleton ms l root)
    (hadj : t.graph.skeleton.Adj root k) (hl : l ∈ t.graph.labels) :
    HasHeard t.graph.skeleton (ms ++ (inward t.graph root).map Message.reply) l k := by
  intro p hp
  rw [List.map_append]
  by_cases hsupport : root ∈ p.support
  · -- the way goes through the root, and the last step is an answer
    obtain rfl := htree.isTreeOn.acyclic.eq_penultimate_of_adj_end hp hadj.symm hsupport
    rw [darts_eq_concat p hadj, List.map_append]
    refine (hheard l hl p.dropLast hp.dropLast).append (List.singleton_sublist.mpr ?_)
    obtain ⟨e, he⟩ := ElimTree.IsTree.exists_mem_neighbors hadj
    refine List.mem_map.mpr ⟨⟨k, p.penultimate, e⟩, ?_, rfl⟩
    exact List.mem_map.mpr ⟨⟨p.penultimate, k, e⟩, List.mem_map.mpr ⟨(k, e), he, rfl⟩, rfl⟩
  · -- the way goes towards the root
    have hup := hheard l hl (p.concat hadj.symm) (hp.concat hsupport hadj.symm)
    rw [Walk.darts_concat, List.concat_eq_append, List.map_append] at hup
    exact ((List.sublist_append_left _ _).trans hup).trans (List.sublist_append_left _ _)

/-- Nobody sends away from the root but the root itself. -/
theorem adj_of_hasHeard_root (R : Rooting {l | l ∈ t.graph.labels} t.graph.skeleton root)
    (htree : t.IsTree) (hms : ∀ m ∈ ms, Upward R Edge.ends m ∨ m.sender = root)
    (hk : k ∈ t.graph.labels) (hne : k ≠ root) (hheard : HasHeard t.graph.skeleton ms root k) :
    t.graph.skeleton.Adj root k := by
  obtain ⟨p, hp, -⟩ := htree.isTreeOn.exists_path R.root_mem hk
  have hparent := R.adj_parent hk hne
  have hdepth := R.depth_parent hk hne
  have hpenultimate : p.penultimate = R.parent k := by
    apply htree.isTreeOn.penultimate_eq R.root_mem hparent.symm ?_ p hp
    rw [R.dist_eq htree.isTreeOn hk,
      R.dist_eq htree.isTreeOn (R.parent_mem htree.isTreeOn hk hne), hdepth]
  have hadj : t.graph.skeleton.Adj p.penultimate k := hpenultimate ▸ hparent.symm
  have hsub := hheard p hp
  rw [darts_eq_concat p hadj, List.map_append] at hsub
  obtain ⟨m, hm, hhop⟩ := List.mem_map.mp
    (hsub.subset (List.mem_append_right _ (List.mem_singleton_self _)))
  have hsender : m.sender = p.penultimate := congrArg Prod.fst hhop
  have hreceiver : m.receiver = k := congrArg Prod.snd hhop
  rcases hms m hm with hup | hroot
  · -- a parent does not send up to its own child
    have hbelow := hup.depth
    rw [hsender, hreceiver, hpenultimate] at hbelow
    omega
  · rw [← hroot, hsender]
    exact hadj

/-- **Repetition does not help.**  After any positive number of rounds the cliques that hold
their marginals, whatever the non-negative tables are, are the first vertex and its
neighbours. -/
theorem rounds_exact_iff (hpos : o.Discrete) (htree : t.IsTree) (hri : t.HasRunningIntersection)
    (hproper : t.ProperSeparators)
    (hroot : (VertexOrdering.default t.graph).vertices.head? = some root)
    (hk : k ∈ t.graph.labels) (n : ℕ) :
    (∀ this : Potentials o K, Ready t this → NonnegTables t this →
      ∃ s, rounds t (n + 1) this = some s ∧ MarginalAt t this s k) ↔
    k = root ∨ t.graph.skeleton.Adj root k := by
  rw [VertexOrdering.vertices_default] at hroot
  obtain ⟨R⟩ := htree.isTreeOn.exists_rooting (List.mem_of_mem_head? hroot)
  obtain ⟨ms, hms⟩ := exists_collects (K := K) htree hri hproper hroot R
  have halong : ∀ m ∈ roundsOf t root ms (n + 1), t.Along m := fun m hm =>
    (hms.mem_roundsOf htree m hm).1
  constructor
  · intro hall
    have hrep := represents_zerosAt (K := K) t root
    obtain ⟨s, hrun, hs⟩ := hms.rounds htree hproper hroot (n + 1) hrep
    obtain ⟨s', hrun', hmarginal⟩ := hall _ (hrep.ready rfl) (nonnegTables_zerosAt t root)
    obtain rfl := Option.some.inj (hrun.symm.trans hrun')
    by_cases hne : k = root
    · exact Or.inl hne
    · have hheard := hs.hasHeard_of_marginalAt hpos htree hproper halong R.root_mem hk hmarginal
      exact Or.inr (adj_of_hasHeard_root R htree (fun m hm => (hms.mem_roundsOf htree m hm).2)
        hk hne hheard)
  · intro hnear this h hnonneg
    obtain ⟨s, hrun, hs⟩ := hms.rounds htree hproper hroot (n + 1) h.represents
    refine ⟨s, hrun, hs.marginalAt_of_hasHeard hpos htree hri hproper halong hk (fun l hl => ?_)
      h hnonneg⟩
    have hcollected : ∀ l ∈ t.graph.labels, HasHeard t.graph.skeleton ms l root := fun l hl =>
      hms.hasHeard hpos htree hproper hl
    rw [roundsOf_succ]
    apply HasHeard.append
    rcases hnear with rfl | hadj
    · exact (hcollected l hl).append _
    · exact hasHeard_reply htree hcollected hadj hl

end Rounds

open BNet in
theorem rounds_exact_iff_chain :
    let t := chainTree chainVertices
    (∀ this : Potentials chainOrdering ℚ, Ready t this → NonnegTables t this →
      ∃ s, rounds t 5 this = some s ∧ MarginalAt t this s ['a', ' ', 'b', ' ']) ↔
    ['a', ' ', 'b', ' '] = ['c', ' ', 'd', ' '] ∨
      t.graph.skeleton.Adj ['c', ' ', 'd', ' '] ['a', ' ', 'b', ' '] := by
  obtain ⟨htree, hri⟩ := chainTree_isJunctionTree chainVertices (List.Perm.refl _) (by decide)
  exact rounds_exact_iff (by decide) htree hri properSeparators_chainTree
    (by rw [VertexOrdering.vertices_default, labels_chainTree]; rfl)
    (by rw [labels_chainTree]; decide) 4

end Ordered

end Potentials

end JunctionBox
