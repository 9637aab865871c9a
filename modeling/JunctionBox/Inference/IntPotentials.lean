import JunctionBox.Inference.Potentials
import JunctionBox.Pot.IntPotentials

/-!
# Initialising the potentials in `int`

`BNet_InitializePotentials` with the `int` sizes and index tables of
`IntTables`.  Two things can go wrong.  The size of a clique or separator may not
fit an `int`; then its table is too short.  And a clique may have a variable
without values, so that it has no entries; a table over a proper subset of the
clique that does have entries finds `NULL` for its index table, as one over the
whole clique would, and is multiplied in past the end (`IntTables.CanEnter`).

`initializePotentialsInt_iff` says that otherwise all goes well: no factor is
lost and none is counted twice.
-/

namespace JunctionBox

open Propagation

namespace IntTables

variable {o : VariableOrdering} {α : Type} {t : ElimTree o}

/-- The first two loops of `BNet_InitializePotentials`. -/
def createAll (A : Arith α) (t : ElimTree o) (this : Potentials o α) : Potentials o α :=
  this.createAllWith (createTabularUnity A) t

/-- One round of the last two loops. -/
def multiplyIn (A : Arith α) (t : ElimTree o) (this : Potentials o α) (curTable : Pot o α) :
    Option (Potentials o α) :=
  match this.findClique t curTable.vbls with
  | none => some this
  | some curVertex => do
    let curClique := this.clique curVertex
    let mi ← getMargInd (this.margMemo curVertex) curClique.vbls curTable.vbls
    let pot ← Pot.Arithmetic.productTabular A curTable curClique mi.1
    return { this with
      clique := Function.update this.clique curVertex pot
      margMemo := Function.update this.margMemo curVertex mi.2 }

/-- A table for every clique and separator, with the size that the `int` product gives, and
memos that hold nothing wrong. -/
structure Shaped (A : Arith α) (t : ElimTree o) (this : Potentials o α) : Prop where
  vbls : ∀ l ∈ t.graph.labels, (this.clique l).vbls = (t.elimSet l).toVariableSet
  size : ∀ l ∈ t.graph.labels, (this.clique l).tableSize = tableSize (t.elimSet l).toVariableSet ∧
    (this.clique l).tabData.length = tableSize (t.elimSet l).toVariableSet
  margMemo : ∀ l ∈ t.graph.labels,
    MulMemo.Consistent (computeMargInd (t.elimSet l).toVariableSet) (this.margMemo l)
  sep : ∀ e ∈ t.graph.edgeList,
    this.sep e.srcSink = createTabularUnity A (t.sepSet e.srcSink).toVariableSet

theorem shaped_createAll (A : Arith α) (t : ElimTree o) (this : Potentials o α) :
    Shaped A t (createAll A t this) := by
  obtain ⟨hcliques, hseps⟩ := Potentials.createAllWith_eq (createTabularUnity A) t this
  refine ⟨fun l hl => ?_, fun l hl => ?_, fun l hl => ?_, fun e he => (hseps e he).1⟩
  · rw [createAll, (hcliques l hl).1]
    rfl
  · rw [createAll, (hcliques l hl).1]
    exact ⟨rfl, List.length_replicate ..⟩
  · rw [createAll, (hcliques l hl).2]
    exact MulMemo.consistent_create _

/-- The number of entries of a clique whose size fits. -/
theorem Shaped.sized_iff {A : Arith α} {this : Potentials o α} (h : Shaped A t this) {l : CString}
    (hl : l ∈ t.graph.labels) :
    (this.clique l).Sized ↔ (t.elimSet l).toVariableSet.FitsInt := by
  obtain ⟨hsize, hlen⟩ := h.size l hl
  rw [← tableSize_eq_iff]
  constructor
  · intro hsized
    rw [← hsize, hsized.tableSize, h.vbls l hl]
  · intro hfits
    refine ⟨?_, ?_⟩
    · rw [hsize, hfits, h.vbls l hl]
    · rw [hlen, hfits, h.vbls l hl]

theorem productTabular_lengths {A : Arith α} {p q r : Pot o α} {mi : Option (MulInd o)}
    (hrun : Pot.Arithmetic.productTabular A p q mi = some r) :
    r.vbls = q.vbls ∧ r.tableSize = q.tableSize ∧ r.tabData.length = q.tabData.length := by
  obtain ⟨qvalues, hvalues, rfl⟩ := Option.map_eq_some_iff.mp hrun
  refine ⟨rfl, rfl, ?_⟩
  apply PartialLoops.foldlM_invariant (fun values : List α => values.length = q.tabData.length)
    hvalues rfl
  intro values e values' _ hlen hstep
  unfold Pot.multiplyEntry at hstep
  obtain ⟨a, -, hstep⟩ := Option.bind_eq_some_iff.mp hstep
  obtain ⟨b, -, hstep⟩ := Option.bind_eq_some_iff.mp hstep
  rw [← Option.some.inj hstep, List.length_set]
  exact hlen

/-- What a round that goes through does to the clique it finds. -/
theorem multiplyIn_cases {A : Arith α} {this next : Potentials o α} {p : Pot o α}
    (h : Shaped A t this) (hrun : multiplyIn A t this p = some next) :
    Potentials.home t p.vbls = none ∧ next = this ∨
      ∃ l mi pot, Potentials.home t p.vbls = some l ∧
        getMargInd (this.margMemo l) (this.clique l).vbls p.vbls = some mi ∧
        Pot.Arithmetic.productTabular A p (this.clique l) mi.1 = some pot ∧
        next = { this with
          clique := Function.update this.clique l pot
          margMemo := Function.update this.margMemo l mi.2 } := by
  unfold multiplyIn at hrun
  rw [Potentials.findClique_eq h.vbls] at hrun
  cases hhome : Potentials.home t p.vbls with
  | none =>
      rw [hhome] at hrun
      exact Or.inl ⟨rfl, (Option.some.inj hrun).symm⟩
  | some l =>
      rw [hhome] at hrun
      obtain ⟨mi, hmi, hrun⟩ := Option.bind_eq_some_iff.mp hrun
      obtain ⟨pot, hpot, hrun⟩ := Option.bind_eq_some_iff.mp hrun
      exact Or.inr ⟨l, mi, pot, rfl, hmi, hpot, (Option.some.inj hrun).symm⟩

theorem Shaped.multiplyIn {A : Arith α} {this next : Potentials o α} {p : Pot o α}
    (h : Shaped A t this) (hrun : IntTables.multiplyIn A t this p = some next) :
    Shaped A t next := by
  rcases multiplyIn_cases h hrun with ⟨-, rfl⟩ | ⟨l, mi, pot, hhome, hmi, hpot, rfl⟩
  · exact h
  obtain ⟨hl, -⟩ := Potentials.home_eq_some hhome
  obtain ⟨hvbls, hsize, hlen⟩ := productTabular_lengths hpot
  have hmemo := h.margMemo l hl
  rw [← h.vbls l hl] at hmemo
  have hnext := (hmemo.of_getMemoized
    (show MulMemo.getMemoized _ _ _ = some (mi.1, mi.2) from hmi)).1
  rw [h.vbls l hl] at hnext
  refine ⟨?_, ?_, ?_, h.sep⟩
  · apply (Function.forall_update_iff this.clique fun k q =>
      k ∈ t.graph.labels → q.vbls = (t.elimSet k).toVariableSet).mpr
    exact ⟨fun _ => hvbls.trans (h.vbls l hl), fun k _ => h.vbls k⟩
  · apply (Function.forall_update_iff this.clique fun k q => k ∈ t.graph.labels →
      q.tableSize = tableSize (t.elimSet k).toVariableSet ∧
        q.tabData.length = tableSize (t.elimSet k).toVariableSet).mpr
    exact ⟨fun _ => ⟨hsize.trans (h.size l hl).1, hlen.trans (h.size l hl).2⟩,
      fun k _ => h.size k⟩
  · apply (Function.forall_update_iff this.margMemo fun k memo => k ∈ t.graph.labels →
      MulMemo.Consistent (computeMargInd (t.elimSet k).toVariableSet) memo).mpr
    exact ⟨fun _ => hnext, fun k _ => h.margMemo k⟩

/-- A table that goes into its clique can be multiplied into it. -/
theorem Shaped.canEnter {A : Arith α} {this next : Potentials o α} {p : Pot o α}
    (h : Shaped A t this) (hp : p.Sized) (hrun : IntTables.multiplyIn A t this p = some next)
    {l : CString} (hhome : Potentials.home t p.vbls = some l) :
    CanEnter p.vbls (t.elimSet l).toVariableSet := by
  rcases multiplyIn_cases h hrun with ⟨hnone, -⟩ | ⟨k, mi, pot, hhome', hmi, hpot, -⟩
  · rw [hnone] at hhome
    exact absurd hhome (by simp)
  obtain rfl : k = l := Option.some.inj (hhome'.symm.trans hhome)
  obtain ⟨hk, hsub⟩ := Potentials.home_eq_some hhome
  rw [← h.vbls k hk]
  intro hzero
  have hfits : (t.elimSet k).toVariableSet.FitsInt := by
    rw [h.vbls k hk] at hzero
    exact VariableSet.fitsInt_of_eq_zero hzero
  have hmemo := h.margMemo k hk
  rw [← h.vbls k hk] at hmemo hfits
  refine canEnter_of_getMargInd A hp ?_ ?_ hmemo hmi hpot hzero
  · rw [h.vbls k hk] at hfits
    exact (h.sized_iff hk).mpr hfits
  · rw [h.vbls k hk]
    exact hsub

section Plain

variable {K : Type} [Field K] [DecidableEq K]

/-- One round, for a clique whose size fits and which the table can be multiplied into. -/
theorem multiplyIn_represents {this : Potentials o K} {b : Beliefs CString Edge ℕ ℕ K}
    (h : Shaped (plain K) t this)
    (hrep : ∀ l ∈ t.graph.labels, (this.clique l).Represents (b.clique l)) {p : Pot o K}
    (hp : Potentials.Enterable p)
    (hfits : ∀ l ∈ t.graph.labels, (t.elimSet l).toVariableSet.FitsInt)
    (henter : ∀ l, Potentials.home t p.vbls = some l →
      CanEnter p.vbls (t.elimSet l).toVariableSet) :
    ∃ next, multiplyIn (plain K) t this p = some next ∧
      ∀ l ∈ t.graph.labels, (next.clique l).Represents ((Potentials.enter t b p).clique l) := by
  unfold multiplyIn Potentials.enter
  rw [Potentials.findClique_eq h.vbls]
  cases hhome : Potentials.home t p.vbls with
  | none => exact ⟨this, rfl, hrep⟩
  | some l =>
      obtain ⟨hl, hsub⟩ := Potentials.home_eq_some hhome
      have hmemo := h.margMemo l hl
      rw [← h.vbls l hl] at hmemo
      obtain ⟨mi, memo', r, hget, -, hrun, -, hr⟩ := productTabular_getMargInd (plain K)
        hp.sized.represents_val (hrep l hl) (h.vbls l hl ▸ hfits l hl) hp.nonempty
        (h.vbls l hl ▸ hsub) (h.vbls l hl ▸ henter l hhome) hmemo
      simp only [Option.bind_eq_bind]
      rw [hget]
      simp only [Option.bind_some]
      rw [hrun]
      refine ⟨_, rfl, ?_⟩
      apply (Function.forall_update_iff this.clique fun k q =>
        k ∈ t.graph.labels → q.Represents ((Potentials.multiply b l p.val).clique k)).mpr
      unfold Potentials.multiply
      refine ⟨fun _ => ?_, fun k hk => ?_⟩
      · simp only [Function.update_self]
        exact hr
      · simp only [Function.update_of_ne hk]
        exact hrep k

/-- The multiplying loops. -/
theorem multiplyAll_represents {this : Potentials o K} {b : Beliefs CString Edge ℕ ℕ K}
    (h : Shaped (plain K) t this)
    (hrep : ∀ l ∈ t.graph.labels, (this.clique l).Represents (b.clique l)) {pots : List (Pot o K)}
    (hpots : ∀ p ∈ pots, Potentials.Enterable p)
    (hfits : ∀ l ∈ t.graph.labels, (t.elimSet l).toVariableSet.FitsInt)
    (henter : ∀ p ∈ pots, ∀ l, Potentials.home t p.vbls = some l →
      CanEnter p.vbls (t.elimSet l).toVariableSet) :
    ∃ next, pots.foldlM (multiplyIn (plain K) t) this = some next ∧
      ∀ l ∈ t.graph.labels,
        (next.clique l).Represents ((pots.foldl (Potentials.enter t) b).clique l) := by
  induction pots generalizing this b with
  | nil => exact ⟨this, rfl, hrep⟩
  | cons p pots ih =>
      obtain ⟨mid, hmid, hrep'⟩ := multiplyIn_represents h hrep (hpots p (List.mem_cons_self ..))
        hfits (henter p (List.mem_cons_self ..))
      obtain ⟨next, hrun, hnext⟩ := ih (h.multiplyIn hmid) hrep'
        (fun q hq => hpots q (List.mem_cons_of_mem _ hq))
        fun q hq => henter q (List.mem_cons_of_mem _ hq)
      exact ⟨next, by rw [List.foldlM_cons, hmid]; exact hrun, hnext⟩

end Plain

theorem Shaped.multiplyAll {A : Arith α} {this next : Potentials o α} {pots : List (Pot o α)}
    (h : Shaped A t this) (hrun : pots.foldlM (IntTables.multiplyIn A t) this = some next) :
    Shaped A t next :=
  PartialLoops.foldlM_invariant (Shaped A t) hrun h fun _ _ _ _ hs hstep => hs.multiplyIn hstep

theorem Shaped.canEnter_of_multiplyAll {A : Arith α} {this next : Potentials o α}
    {pots : List (Pot o α)} (h : Shaped A t this) (hpots : ∀ p ∈ pots, p.Sized)
    (hrun : pots.foldlM (IntTables.multiplyIn A t) this = some next) :
    ∀ p ∈ pots, ∀ l, Potentials.home t p.vbls = some l →
      CanEnter p.vbls (t.elimSet l).toVariableSet := by
  induction pots generalizing this with
  | nil => exact fun p hp => absurd hp List.not_mem_nil
  | cons q pots ih =>
      rw [List.foldlM_cons] at hrun
      obtain ⟨mid, hmid, hrun⟩ := Option.bind_eq_some_iff.mp hrun
      intro p hp l hhome
      rcases List.mem_cons.mp hp with rfl | hp
      · exact h.canEnter (hpots p (List.mem_cons_self ..)) hmid hhome
      · exact ih (h.multiplyIn hmid) (fun r hr => hpots r (List.mem_cons_of_mem _ hr)) hrun p hp l
          hhome

end IntTables

namespace BNet

open IntTables Potentials

variable {o : VariableOrdering} {α : Type}

/-- `BNet_InitializePotentials` and `BNet_InitializePotentialsLog`; `state` is what was there
before. -/
def initializePotentialsIntWith (A : Arith α) (this : BNet o α) (t : ElimTree o)
    (state : Potentials o α) : Option (Potentials o α) := do
  let state := IntTables.createAll A t state
  let state ← (this.tables.map CPT.pot).foldlM (IntTables.multiplyIn A t) state
  (this.obs.map Observation.pot).foldlM (IntTables.multiplyIn A t) state

theorem initializePotentialsIntWith_eq (A : Arith α) (this : BNet o α) (t : ElimTree o)
    (state : Potentials o α) :
    this.initializePotentialsIntWith A t state =
      this.pots.foldlM (IntTables.multiplyIn A t) (IntTables.createAll A t state) :=
  (PartialLoops.foldlM_append _ _ _).symm

section Plain

variable {K : Type} [Field K] [DecidableEq K]

/-- `BNet_InitializePotentials`. -/
def initializePotentialsInt (this : BNet o K) (t : ElimTree o) (state : Potentials o K) :
    Option (Potentials o K) :=
  this.initializePotentialsIntWith (plain K) t state

/-- The separators are one, every clique has an entry for each assignment of its variables, and
at every complete assignment the cliques multiply to the product of all tables and all
observations. -/
structure Initialized (this : BNet o K) (t : ElimTree o) (s : Potentials o K) : Prop where
  sep : ∀ e ∈ t.graph.edgeList, (s.sep e.srcSink).vbls = (t.sepSet e.srcSink).toVariableSet ∧
    (s.sep e.srcSink).Represents fun _ => 1
  clique : ∀ l ∈ t.graph.labels, (s.clique l).vbls = (t.elimSet l).toVariableSet ∧
    (s.clique l).Sized
  joint : ∀ x, o.Complete x → (t.graph.labels.map fun l => (s.clique l).val x).prod =
    (this.tables.map fun table => table.pot.val x).prod *
      (this.obs.map fun ob => ob.pot.val x).prod

/-- **No table or observation is lost or counted twice** if and only if the sizes of all cliques
and separators fit an `int` and every table and observation can be multiplied into the clique that
the search finds for it. -/
theorem initializePotentialsInt_iff {this : BNet o K} {t : ElimTree o}
    (hpots : ∀ p ∈ this.pots, Enterable p)
    (hfit : ∀ p ∈ this.pots, ∃ l ∈ t.graph.labels, p.vbls.vars ⊆ t.clique l)
    (state : Potentials o K) :
    (∃ s, this.initializePotentialsInt t state = some s ∧ this.Initialized t s) ↔
      (∀ l ∈ t.graph.labels, (t.elimSet l).toVariableSet.FitsInt) ∧
      (∀ e ∈ t.graph.edgeList, (t.sepSet e.srcSink).toVariableSet.FitsInt) ∧
      ∀ p ∈ this.pots, ∀ l, home t p.vbls = some l →
        CanEnter p.vbls (t.elimSet l).toVariableSet := by
  have hstart := IntTables.shaped_createAll (plain K) t state
  unfold initializePotentialsInt
  rw [initializePotentialsIntWith_eq]
  constructor
  · rintro ⟨s, hrun, hs⟩
    have hshaped := hstart.multiplyAll hrun
    refine ⟨fun l hl => (hshaped.sized_iff hl).mp (hs.clique l hl).2, fun e he => ?_, ?_⟩
    · have hsized := (hs.sep e he).2.sized.tableSize
      rw [hshaped.sep e he] at hsized
      exact tableSize_eq_iff.mp hsized
    · exact hstart.canEnter_of_multiplyAll (fun p hp => (hpots p hp).sized) hrun
  · rintro ⟨hcliques, hseps, henter⟩
    have hones : ∀ l ∈ t.graph.labels,
        ((IntTables.createAll (plain K) t state).clique l).Represents (unity.clique l) := by
      intro l hl
      have hfst := ((createAllWith_eq (createTabularUnity (plain K)) t state).1 l hl).1
      rw [IntTables.createAll, hfst, createTabularUnity_eq _ (hcliques l hl)]
      exact Pot.createTabularUnity_represents _
    obtain ⟨s, hrun, hrep⟩ := multiplyAll_represents hstart hones hpots hcliques henter
    have hshaped := hstart.multiplyAll hrun
    refine ⟨s, hrun, fun e he => ?_, fun l hl => ⟨hshaped.vbls l hl, (hrep l hl).sized⟩,
      fun x hx => ?_⟩
    · rw [hshaped.sep e he, createTabularUnity_eq _ (hseps e he)]
      exact ⟨rfl, Pot.createTabularUnity_represents _⟩
    · rw [prod_val_filter hrep hx, filter_home hfit, prod_pots]

end Plain

/-- All four variables of the chain. -/
def chainAll : VariableSet chainOrdering := ⟨⟨[15#8], rfl⟩⟩

theorem fits_chain (vbls : VariableSet chainOrdering) :
    vbls.FitsInt ∧ vbls.getCardinality ≠ 0 := by
  have hsub : vbls.vars ⊆ chainAll.vars := by
    intro i hi
    have hlt := (VariableSet.mem_vars.mp hi).1
    have hall : ∀ i < chainOrdering.size, i ∈ chainAll.vars := by decide
    exact hall i hlt
  refine ⟨VariableSet.FitsInt.mono (show chainAll.FitsInt by decide) (by decide) hsub, ?_⟩
  exact (VariableSet.getCardinality_pos (by decide) vbls).ne'

theorem initializePotentialsInt_chain :
    ∃ bn t s, createList2 chainTables [chainObservation] = some bn ∧
      bn.buildElimTree QSort.insertion chainVertices = some t ∧
      bn.initializePotentialsInt t (unset chainOrdering ℚ) = some s ∧ bn.Initialized t s := by
  obtain ⟨bn, hrun, htables, hobs, ht, hpots⟩ := chain_pots chainVertices
    (List.Perm.refl _)
  obtain ⟨s, hs, hinit⟩ := (initializePotentialsInt_iff (t := chainTree chainVertices)
    (fun p hp => (hpots p hp).1) (fun p hp => (hpots p hp).2.1)
    (unset chainOrdering ℚ)).mpr ⟨fun l _ => (fits_chain _).1, fun e _ => (fits_chain _).1,
      fun p _ l _ hzero => absurd hzero (fits_chain _).2⟩
  exact ⟨bn, _, s, hrun, ht, hs, hinit⟩

/-- A binary variable, and one without values. -/
def openOrdering : VariableOrdering := ⟨[⟨['a'], 2⟩, ⟨['b'], 0⟩]⟩

/-- The binary variable is the parent of the other one. -/
def openTables : List (CPT openOrdering ℚ) :=
  let table parents i := uniformTable openOrdering (parents.map openOrdering.vbl)
    (openOrdering.vbl i)
  [table [] 0, table [0] 1]

/-- The variables in their order. -/
def openVertices : VertexOrdering := ⟨openOrdering.labels⟩

/-- The table of `a` finds `NULL` and is multiplied in past the end of its clique. -/
theorem not_initialized_open :
    ∃ bn t, createList2 openTables [] = some bn ∧
      bn.buildElimTree QSort.insertion openVertices = some t ∧
      (∀ p ∈ bn.pots, Enterable p ∧ ∃ l ∈ t.graph.labels, p.vbls.vars ⊆ t.clique l) ∧
      bn.initializePotentialsInt t (unset openOrdering ℚ) = none ∧
      ¬∃ s, bn.initializePotentialsInt t (unset openOrdering ℚ) = some s ∧
        bn.Initialized t s := by
  have hpairs : ∀ p ∈ parentPairs openTables,
      p.1 ∈ openOrdering.labels ∧ p.2 ∈ openOrdering.labels := by decide
  obtain ⟨bn, hrun, -, htables, hobs⟩ := created_of_tables [] hpairs
  have htree : (createList2 openTables []).bind (fun bn =>
      (bn.buildElimTree QSort.insertion openVertices).map fun t =>
        ((bn.initializePotentialsInt t (unset openOrdering ℚ)).isNone,
          decide (∀ p ∈ bn.pots, ∃ l ∈ t.graph.labels, p.vbls.vars ⊆ t.clique l))) =
      some (true, true) := by decide
  rw [hrun, Option.bind_some, Option.map_eq_some_iff] at htree
  obtain ⟨t, ht, hpair⟩ := htree
  obtain ⟨hnone, hfit⟩ := Prod.mk.inj hpair
  rw [Option.isNone_iff_eq_none] at hnone
  refine ⟨bn, t, hrun, ht, fun p hp => ⟨?_, of_decide_eq_true hfit p hp⟩, hnone, ?_⟩
  · have hp' : p ∈ openTables.map CPT.pot := by
      rw [pots, htables, hobs] at hp
      simpa using hp
    obtain ⟨table, htable, rfl⟩ := List.mem_map.mp hp'
    have hvars : ∀ table ∈ openTables, table.pot.vbls.vars.Nonempty := by decide
    have hsized : ∀ table ∈ openTables, table.pot.tableSize = table.pot.vbls.getCardinality ∧
        table.pot.tabData.length = table.pot.vbls.getCardinality := by decide
    exact ⟨⟨(hsized table htable).1, (hsized table htable).2⟩, hvars table htable⟩
  · rintro ⟨s, hs, -⟩
    rw [hnone] at hs
    exact absurd hs (by simp)

end BNet

end JunctionBox
