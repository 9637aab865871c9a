import JunctionBox.Foundations.JointInvariant
import JunctionBox.Inference.BuildElimTree
import JunctionBox.Pot.IndexTables
import Mathlib.Algebra.Order.Ring.Rat
import Mathlib.Data.List.Find

/-!
# Initialising the potentials

`BNet_InitializePotentials` puts a table of ones on every separator and every
clique, and then multiplies each table of the network, and after them each
observation, into the first clique that contains its variables.  A table that
fits in no clique is skipped without a word.

The state is what hangs on the vertices and edges of the elimination tree.
`Represents t s b` relates it to a belief state `b` of the general theory; the
loops multiply `b` by one factor at a time (`Represents.multiplyIn`), and every
factor ends up in exactly one clique (`prod_foldl_enter`).
-/

namespace JunctionBox

open Propagation

/-- The `pot`, `margMemo` and `mulMemo` pointers of the vertices, by label, and of the
edges, by key. -/
structure Potentials (o : VariableOrdering) (α : Type) where
  clique : CString → Pot o α
  sep : CString → Pot o α
  margMemo : CString → MulMemo o (Option (MulInd o))
  mulMemo : CString → MulMemo o (MulInd o)

namespace Potentials

variable {o : VariableOrdering} {α : Type}

/-- Nothing has been set yet. -/
def unset (o : VariableOrdering) (α : Type) : Potentials o α where
  clique _ := Pot.createTabular (VariableSet.create o) []
  sep _ := Pot.createTabular (VariableSet.create o) []
  margMemo _ := MulMemo.create
  mulMemo _ := MulMemo.create

section Definitions

section Unity

variable (unity : VariableSet o → Pot o α) (t : ElimTree o)

/-- The separator's potential and memo, for a function that makes a table of ones. -/
def createSeparatorWith (this : Potentials o α) (curEdge : Edge) : Potentials o α :=
  let vbls := (t.sepSet curEdge.srcSink).toVariableSet
  { this with
    sep := Function.update this.sep curEdge.srcSink (unity vbls)
    mulMemo := Function.update this.mulMemo curEdge.srcSink MulMemo.create }

/-- The clique's potential and memo. -/
def createCliqueWith (this : Potentials o α) (curVertex : CString) : Potentials o α :=
  let vbls := (t.elimSet curVertex).toVariableSet
  { this with
    clique := Function.update this.clique curVertex (unity vbls)
    margMemo := Function.update this.margMemo curVertex MulMemo.create }

/-- The first two loops of `BNet_InitializePotentials`. -/
def createAllWith (this : Potentials o α) : Potentials o α :=
  t.graph.labels.foldl (createCliqueWith unity t)
    (t.graph.edgeList.foldl (createSeparatorWith unity t) this)

end Unity

variable (A : Arith α) (t : ElimTree o)

/-- The separator's potential and memo. -/
def createSeparator (this : Potentials o α) (curEdge : Edge) : Potentials o α :=
  createSeparatorWith (Pot.Arithmetic.createTabularUnity A) t this curEdge

/-- The clique's potential and memo. -/
def createClique (this : Potentials o α) (curVertex : CString) : Potentials o α :=
  createCliqueWith (Pot.Arithmetic.createTabularUnity A) t this curVertex

/-- The first two loops of `BNet_InitializePotentials`. -/
def createAll (this : Potentials o α) : Potentials o α :=
  t.graph.labels.foldl (createClique A t) (t.graph.edgeList.foldl (createSeparator A t) this)

/-- The inner loop of the last two loops: the first clique that contains the variables.
`cliquePots` has the order of the vertices. -/
def findClique (this : Potentials o α) (curVbls : VariableSet o) : Option CString :=
  t.graph.labels.find? fun curVertex => curVbls.containedIn (this.clique curVertex).vbls

/-- One round of the last two loops. -/
def multiplyIn (this : Potentials o α) (curTable : Pot o α) : Option (Potentials o α) :=
  match this.findClique t curTable.vbls with
  | none => some this
  | some curVertex => do
    let curClique := this.clique curVertex
    let mi ← (this.margMemo curVertex).getMargInd curClique.vbls curTable.vbls
    let pot ← Pot.Arithmetic.productTabular A curTable curClique mi.1
    return { this with
      clique := Function.update this.clique curVertex pot
      margMemo := Function.update this.margMemo curVertex mi.2 }

end Definitions

end Potentials

namespace BNet

variable {o : VariableOrdering} {α : Type}

/-- The potentials of the tables and of the observations, in the order of the loops. -/
def pots (this : BNet o α) : List (Pot o α) :=
  this.tables.map CPT.pot ++ this.obs.map Observation.pot

/-- `BNet_InitializePotentials` and `BNet_InitializePotentialsLog`; `state` is what was there
before. -/
def initializePotentialsWith (A : Arith α) (this : BNet o α) (t : ElimTree o)
    (state : Potentials o α) : Option (Potentials o α) := do
  let state := state.createAll A t
  let state ← (this.tables.map CPT.pot).foldlM (Potentials.multiplyIn A t) state
  (this.obs.map Observation.pot).foldlM (Potentials.multiplyIn A t) state

/-- `BNet_InitializePotentials`. -/
def initializePotentials {K : Type} [Field K] [DecidableEq K] (this : BNet o K)
    (t : ElimTree o) (state : Potentials o K) : Option (Potentials o K) :=
  this.initializePotentialsWith (plain K) t state

theorem initializePotentialsWith_eq (A : Arith α) (this : BNet o α) (t : ElimTree o)
    (state : Potentials o α) :
    this.initializePotentialsWith A t state =
      this.pots.foldlM (Potentials.multiplyIn A t) (state.createAll A t) :=
  (PartialLoops.foldlM_append _ _ _).symm

end BNet

namespace Potentials

variable {o : VariableOrdering} {α : Type} {t : ElimTree o}

/-- The potentials range over the cliques and separators of the tree, and the memos hold
nothing wrong. -/
structure Shaped (t : ElimTree o) (this : Potentials o α) : Prop where
  clique : ∀ l ∈ t.graph.labels, (this.clique l).vbls = (t.elimSet l).toVariableSet
  sep : ∀ e ∈ t.graph.edgeList, (this.sep e.srcSink).vbls = (t.sepSet e.srcSink).toVariableSet
  margMemo : ∀ l ∈ t.graph.labels,
    MulMemo.Consistent (t.elimSet l).toVariableSet.computeMargInd (this.margMemo l)
  mulMemo : ∀ e ∈ t.graph.edgeList,
    MulMemo.Consistent (t.sepSet e.srcSink).toVariableSet.computeMulInd (this.mulMemo e.srcSink)

/-- What the first two loops leave. -/
theorem createAllWith_eq (unity : VariableSet o → Pot o α) (t : ElimTree o)
    (this : Potentials o α) :
    (∀ l ∈ t.graph.labels, (this.createAllWith unity t).clique l =
        unity (t.elimSet l).toVariableSet ∧
      (this.createAllWith unity t).margMemo l = MulMemo.create) ∧
    ∀ e ∈ t.graph.edgeList, (this.createAllWith unity t).sep e.srcSink =
        unity (t.sepSet e.srcSink).toVariableSet ∧
      (this.createAllWith unity t).mulMemo e.srcSink = MulMemo.create := by
  refine ⟨?_, fun e he => ?_⟩
  · apply PartialLoops.foldl_establishes (P := fun l (s : Potentials o α) =>
      s.clique l = unity (t.elimSet l).toVariableSet ∧
        s.margMemo l = MulMemo.create)
    · intro s l
      exact ⟨Function.update_self .., Function.update_self ..⟩
    · intro s l l' h
      by_cases heq : l' = l
      · subst heq
        exact ⟨Function.update_self .., Function.update_self ..⟩
      · exact ⟨(Function.update_of_ne heq ..).trans h.1, (Function.update_of_ne heq ..).trans h.2⟩
  · have hcliques : ∀ (ls : List CString) (s : Potentials o α),
        (ls.foldl (createCliqueWith unity t) s).sep = s.sep ∧
          (ls.foldl (createCliqueWith unity t) s).mulMemo = s.mulMemo := by
      intro ls
      induction ls with
      | nil => exact fun s => ⟨rfl, rfl⟩
      | cons l ls ih => exact fun s => ih _
    unfold createAllWith
    rw [(hcliques _ _).1, (hcliques _ _).2]
    revert e he
    apply PartialLoops.foldl_establishes (P := fun (e : Edge) (s : Potentials o α) =>
      s.sep e.srcSink = unity (t.sepSet e.srcSink).toVariableSet ∧
        s.mulMemo e.srcSink = MulMemo.create)
    · intro s e
      exact ⟨Function.update_self .., Function.update_self ..⟩
    · intro s e e' h
      by_cases heq : e'.srcSink = e.srcSink
      · rw [heq]
        exact ⟨Function.update_self .., Function.update_self ..⟩
      · exact ⟨(Function.update_of_ne heq ..).trans h.1, (Function.update_of_ne heq ..).trans h.2⟩

theorem createAll_eq (A : Arith α) (t : ElimTree o) (this : Potentials o α) :
    (∀ l ∈ t.graph.labels, (this.createAll A t).clique l =
        Pot.Arithmetic.createTabularUnity A (t.elimSet l).toVariableSet ∧
      (this.createAll A t).margMemo l = MulMemo.create) ∧
    ∀ e ∈ t.graph.edgeList, (this.createAll A t).sep e.srcSink =
        Pot.Arithmetic.createTabularUnity A (t.sepSet e.srcSink).toVariableSet ∧
      (this.createAll A t).mulMemo e.srcSink = MulMemo.create :=
  createAllWith_eq (Pot.Arithmetic.createTabularUnity A) t this

theorem shaped_createAll (A : Arith α) (t : ElimTree o) (this : Potentials o α) :
    Shaped t (this.createAll A t) := by
  obtain ⟨hcliques, hseps⟩ := createAll_eq A t this
  refine ⟨fun l hl => ?_, fun e he => ?_, fun l hl => ?_, fun e he => ?_⟩
  · rw [(hcliques l hl).1]
    rfl
  · rw [(hseps e he).1]
    rfl
  · rw [(hcliques l hl).2]
    exact MulMemo.consistent_create _
  · rw [(hseps e he).2]
    exact MulMemo.consistent_create _

/-- The clique that the search finds. -/
def home (t : ElimTree o) (curVbls : VariableSet o) : Option CString :=
  t.graph.labels.find? fun curVertex =>
    curVbls.containedIn (t.elimSet curVertex).toVariableSet

theorem findClique_eq {this : Potentials o α}
    (h : ∀ l ∈ t.graph.labels, (this.clique l).vbls = (t.elimSet l).toVariableSet)
    (curVbls : VariableSet o) : this.findClique t curVbls = home t curVbls := by
  unfold findClique home
  apply List.find?_congr
  intro l hl
  rw [h l hl]

theorem home_eq_some {curVbls : VariableSet o} {l : CString} (h : home t curVbls = some l) :
    l ∈ t.graph.labels ∧ curVbls.vars ⊆ t.clique l := by
  refine ⟨List.mem_of_find?_eq_some h, ?_⟩
  have hfound := List.find?_some h
  exact (VariableSet.containedIn_iff _ _).mp hfound

theorem home_isSome_iff {curVbls : VariableSet o} :
    (home t curVbls).isSome ↔ ∃ l ∈ t.graph.labels, curVbls.vars ⊆ t.clique l := by
  rw [home, List.find?_isSome]
  exact exists_congr fun l => and_congr_right fun _ => VariableSet.containedIn_iff _ _

/-- The potentials that the last two loops find a clique for; here all of them. -/
theorem filter_home {pots : List (Pot o α)}
    (h : ∀ p ∈ pots, ∃ l ∈ t.graph.labels, p.vbls.vars ⊆ t.clique l) :
    (pots.filter fun p => (home t p.vbls).isSome) = pots := by
  rw [List.filter_eq_self]
  intro p hp
  exact home_isSome_iff.mpr (h p hp)

/-- A product keeps the variables of the clique it changes. -/
theorem vbls_multiplyIn {A : Arith α} {this next : Potentials o α} {curTable : Pot o α}
    (h : multiplyIn A t this curTable = some next) (l : CString) :
    (next.clique l).vbls = (this.clique l).vbls := by
  unfold multiplyIn at h
  split at h
  · rw [Option.some.inj h]
  · next curVertex _ =>
      obtain ⟨mi, -, h⟩ := Option.bind_eq_some_iff.mp h
      obtain ⟨pot, hpot, h⟩ := Option.bind_eq_some_iff.mp h
      obtain ⟨qvalues, -, rfl⟩ := Option.map_eq_some_iff.mp hpot
      rw [← Option.some.inj h]
      by_cases heq : l = curVertex
      · subst heq
        simp only [Function.update_self]
      · simp only [Function.update_of_ne heq]

/-! ## Plain potentials and beliefs -/

section Plain

variable {K : Type} [Field K] [DecidableEq K]

/-- The tables of the state hold the factors of `b`. -/
structure Represents (t : ElimTree o) (this : Potentials o K)
    (b : Beliefs CString Edge ℕ ℕ K) : Prop where
  shaped : Shaped t this
  isScoped : Scoped t.clique t.separatorOf b
  clique : ∀ l ∈ t.graph.labels, (this.clique l).Represents (b.clique l)
  sep : ∀ e ∈ t.graph.edgeList, (this.sep e.srcSink).Represents (b.sep e)

/-- All factors are one. -/
def unity : Beliefs CString Edge ℕ ℕ K := ⟨fun _ _ => 1, fun _ _ => 1⟩

/-- `f` multiplied into the factor of clique `l`. -/
def multiply (b : Beliefs CString Edge ℕ ℕ K) (l : CString) (f : Assignment → K) :
    Beliefs CString Edge ℕ ℕ K :=
  { b with clique := Function.update b.clique l fun x => f x * b.clique l x }

/-- The potential `p` multiplied into the clique where the search puts it. -/
def enter (t : ElimTree o) (b : Beliefs CString Edge ℕ ℕ K) (p : Pot o K) :
    Beliefs CString Edge ℕ ℕ K :=
  match home t p.vbls with
  | some l => multiply b l p.val
  | none => b

theorem represents_createAll (t : ElimTree o) (this : Potentials o K) :
    Represents t (this.createAll (plain K) t) unity := by
  obtain ⟨hcliques, hseps⟩ := createAll_eq (plain K) t this
  refine ⟨shaped_createAll _ t this, ⟨fun k x y _ => rfl, fun e x y _ => rfl⟩, fun l hl => ?_,
    fun e he => ?_⟩
  · rw [(hcliques l hl).1]
    exact Pot.createTabularUnity_represents _
  · rw [(hseps e he).1]
    exact Pot.createTabularUnity_represents _

omit [DecidableEq K] in
theorem scoped_multiply {b : Beliefs CString Edge ℕ ℕ K}
    (hb : Scoped t.clique t.separatorOf b) {l : CString} {p : Pot o K}
    (hsub : p.vbls.vars ⊆ t.clique l) : Scoped t.clique t.separatorOf (multiply b l p.val) := by
  refine ⟨fun k => ?_, hb.sep⟩
  unfold multiply
  by_cases hk : k = l
  · subst hk
    simp only [Function.update_self]
    intro x y hxy
    have hp := Pot.dependsOn_val p fun i hi => hxy i (hsub hi)
    simp only [hp, hb.clique k hxy]
  · simp only [Function.update_of_ne hk]
    exact hb.clique k

/-- **One round of the multiplying loops**, for a table that has no entries if the clique it goes
into has none. -/
theorem Represents.multiplyIn_of_card {this : Potentials o K}
    {b : Beliefs CString Edge ℕ ℕ K} (h : Represents t this b) {p : Pot o K} (hp : p.Sized)
    (hne : p.vbls.vars.Nonempty)
    (hcard : ∀ l, home t p.vbls = some l → (t.elimSet l).toVariableSet.getCardinality = 0 →
      p.vbls.getCardinality = 0) :
    ∃ next, Potentials.multiplyIn (plain K) t this p = some next ∧
      Represents t next (enter t b p) := by
  unfold Potentials.multiplyIn enter
  rw [findClique_eq h.shaped.clique]
  cases hhome : home t p.vbls with
  | none => exact ⟨this, rfl, h⟩
  | some l =>
      obtain ⟨hl, hsub⟩ := home_eq_some hhome
      have hvbls := h.shaped.clique l hl
      have hsub' : p.vbls.vars ⊆ (this.clique l).vbls.vars := by
        rw [hvbls]
        exact hsub
      obtain ⟨mi, memo', r, hget, hcons, hrun, hr, hrep⟩ :=
        Pot.Arithmetic.productTabular_getMargInd (plain K) hp.represents_val (h.clique l hl)
          (hvbls ▸ h.shaped.margMemo l hl) hne hsub' (hvbls ▸ hcard l hhome)
      simp only [Option.bind_eq_bind]
      rw [hget]
      simp only [Option.bind_some]
      rw [hrun]
      refine ⟨_, rfl, ⟨?_, h.shaped.sep, ?_, h.shaped.mulMemo⟩,
        scoped_multiply h.isScoped hsub, ?_, h.sep⟩
      · apply (Function.forall_update_iff this.clique fun k q =>
          k ∈ t.graph.labels → q.vbls = (t.elimSet k).toVariableSet).mpr
        exact ⟨fun _ => hr.trans hvbls, fun k _ => h.shaped.clique k⟩
      · apply (Function.forall_update_iff this.margMemo fun k memo => k ∈ t.graph.labels →
          MulMemo.Consistent (t.elimSet k).toVariableSet.computeMargInd memo).mpr
        exact ⟨fun _ => hvbls ▸ hcons, fun k _ => h.shaped.margMemo k⟩
      · apply (Function.forall_update_iff this.clique fun k q =>
          k ∈ t.graph.labels → q.Represents ((multiply b l p.val).clique k)).mpr
        unfold multiply
        refine ⟨fun _ => ?_, fun k hk => ?_⟩
        · simp only [Function.update_self]
          exact hrep
        · simp only [Function.update_of_ne hk]
          exact h.clique k

theorem Represents.multiplyIn (hpos : o.Discrete) {this : Potentials o K}
    {b : Beliefs CString Edge ℕ ℕ K} (h : Represents t this b) {p : Pot o K} (hp : p.Sized)
    (hne : p.vbls.vars.Nonempty) :
    ∃ next, Potentials.multiplyIn (plain K) t this p = some next ∧
      Represents t next (enter t b p) :=
  h.multiplyIn_of_card hp hne fun _ _ hzero =>
    absurd hzero (VariableSet.getCardinality_pos hpos _).ne'

/-- A round that goes through has multiplied the table in: one with entries would be written past
the end of a clique without entries. -/
theorem Represents.of_multiplyIn {this next : Potentials o K} {b : Beliefs CString Edge ℕ ℕ K}
    (h : Represents t this b) {p : Pot o K} (hp : p.Sized) (hne : p.vbls.vars.Nonempty)
    (hrun : Potentials.multiplyIn (plain K) t this p = some next) :
    Represents t next (enter t b p) := by
  have hcard : ∀ l, home t p.vbls = some l →
      (t.elimSet l).toVariableSet.getCardinality = 0 → p.vbls.getCardinality = 0 := by
    intro l hhome hzero
    by_contra hpzero
    obtain ⟨hl, hsub⟩ := home_eq_some hhome
    have hvbls := h.shaped.clique l hl
    have hsub' : p.vbls.vars ⊆ (t.elimSet l).toVariableSet.vars := hsub
    have hproper : p.vbls.vars ⊂ (t.elimSet l).toVariableSet.vars := by
      refine hsub'.ssubset_of_ne fun heq => hpzero ?_
      rw [VariableSet.getCardinality_eq_prod, heq, ← VariableSet.getCardinality_eq_prod, hzero]
    rw [VariableSet.getCardinality_eq_mul hsub'] at hzero
    obtain ⟨memo', hget, -⟩ := MulMemo.getMargInd_eq_null (h.shaped.margMemo l hl)
      (Or.inr ⟨hproper, (Nat.mul_eq_zero.mp hzero).resolve_left hpzero⟩)
    rw [Potentials.multiplyIn, findClique_eq h.shaped.clique, hhome] at hrun
    obtain ⟨mi, hmi, hrun⟩ := Option.bind_eq_some_iff.mp hrun
    rw [hvbls, hget, Option.some.injEq] at hmi
    obtain ⟨pot, hpot, -⟩ := Option.bind_eq_some_iff.mp hrun
    rw [← hmi, Pot.Arithmetic.productTabular_none_eq_none (plain K) hp (h.clique l hl).sized hpzero
      (by rw [hvbls, VariableSet.getCardinality_eq_mul hsub', hzero])] at hpot
    exact absurd hpot (by simp)
  obtain ⟨next', hrun', hnext⟩ := h.multiplyIn_of_card hp hne hcard
  obtain rfl : next = next' := Option.some.inj (hrun.symm.trans hrun')
  exact hnext

/-- A potential that the loops can handle: a table of the right size over at least one
variable. -/
structure Enterable (p : Pot o K) : Prop where
  sized : p.Sized
  nonempty : p.vbls.vars.Nonempty

/-- The multiplying loops. -/
theorem Represents.multiplyAll (hpos : o.Discrete) {this : Potentials o K}
    {b : Beliefs CString Edge ℕ ℕ K} (h : Represents t this b) {pots : List (Pot o K)}
    (hpots : ∀ p ∈ pots, Enterable p) :
    ∃ next, pots.foldlM (Potentials.multiplyIn (plain K) t) this = some next ∧
      Represents t next (pots.foldl (enter t) b) := by
  induction pots generalizing this b with
  | nil => exact ⟨this, rfl, h⟩
  | cons p pots ih =>
      have hp := hpots p (List.mem_cons_self ..)
      obtain ⟨mid, hmid, hrep⟩ := h.multiplyIn hpos hp.sized hp.nonempty
      obtain ⟨next, hrun, hnext⟩ := ih hrep fun q hq => hpots q (List.mem_cons_of_mem _ hq)
      exact ⟨next, by rw [List.foldlM_cons, hmid]; exact hrun, hnext⟩

omit [DecidableEq K] in
theorem sep_foldl_enter (pots : List (Pot o K)) (b : Beliefs CString Edge ℕ ℕ K) :
    (pots.foldl (enter t) b).sep = b.sep := by
  induction pots generalizing b with
  | nil => rfl
  | cons p pots ih =>
      rw [List.foldl_cons, ih, enter]
      cases home t p.vbls <;> rfl

omit [DecidableEq K] in
/-- A factor multiplied into one clique is multiplied into the product of all. -/
theorem prod_multiply {l : CString} (hl : l ∈ t.graph.labels)
    (b : Beliefs CString Edge ℕ ℕ K) (f : Assignment → K) (x : Assignment) :
    ∏ k ∈ t.graph.labels.toFinset, (multiply b l f).clique k x =
      f x * ∏ k ∈ t.graph.labels.toFinset, b.clique k x := by
  have hmem := List.mem_toFinset.mpr hl
  rw [← Finset.mul_prod_erase _ _ hmem, ← Finset.mul_prod_erase _ (fun k => b.clique k x) hmem,
    ← mul_assoc]
  unfold multiply
  simp only [Function.update_self]
  congr 1
  refine Finset.prod_congr rfl fun k hk => ?_
  rw [Function.update_of_ne (Finset.ne_of_mem_erase hk)]

omit [DecidableEq K] in
/-- **No factor is counted twice**, and those that fit in a clique are not lost. -/
theorem prod_foldl_enter_filter (pots : List (Pot o K)) (b : Beliefs CString Edge ℕ ℕ K)
    (x : Assignment) :
    ∏ k ∈ t.graph.labels.toFinset, (pots.foldl (enter t) b).clique k x =
      ((pots.filter fun p => (home t p.vbls).isSome).map fun p => p.val x).prod *
        ∏ k ∈ t.graph.labels.toFinset, b.clique k x := by
  induction pots generalizing b with
  | nil => simp
  | cons p pots ih =>
      rw [List.foldl_cons, ih, List.filter_cons]
      cases hhome : home t p.vbls with
      | none =>
          have henter : enter t b p = b := by rw [enter, hhome]
          rw [henter]
          rfl
      | some l =>
          have henter : enter t b p = multiply b l p.val := by rw [enter, hhome]
          rw [henter, prod_multiply (home_eq_some hhome).1, Option.isSome_some, if_pos rfl,
            List.map_cons, List.prod_cons]
          ring

omit [DecidableEq K] in
/-- **No factor is lost** when all of them fit. -/
theorem prod_foldl_enter {pots : List (Pot o K)}
    (hhome : ∀ p ∈ pots, ∃ l ∈ t.graph.labels, p.vbls.vars ⊆ t.clique l)
    (b : Beliefs CString Edge ℕ ℕ K) (x : Assignment) :
    ∏ k ∈ t.graph.labels.toFinset, (pots.foldl (enter t) b).clique k x =
      (pots.map fun p => p.val x).prod * ∏ k ∈ t.graph.labels.toFinset, b.clique k x := by
  rw [prod_foldl_enter_filter, filter_home hhome]

omit [DecidableEq K] in
theorem val_nonneg [LinearOrder K] {p : Pot o K} (h : ∀ a ∈ p.tabData, 0 ≤ a)
    (x : Assignment) : 0 ≤ p.val x := by
  rw [Pot.val, Pot.entry]
  cases hget : p.tabData[p.vbls.index x]? with
  | none => exact le_rfl
  | some a => exact h a (List.mem_of_getElem? hget)

omit [DecidableEq K] in
theorem nonneg_foldl_enter [LinearOrder K] [IsStrictOrderedRing K] {pots : List (Pot o K)}
    (hpots : ∀ p ∈ pots, ∀ a ∈ p.tabData, 0 ≤ a) {b : Beliefs CString Edge ℕ ℕ K}
    (hb : Nonneg b) : Nonneg (pots.foldl (enter t) b) := by
  induction pots generalizing b with
  | nil => exact hb
  | cons p pots ih =>
      refine ih (fun q hq => hpots q (List.mem_cons_of_mem _ hq)) ?_
      unfold enter
      cases home t p.vbls with
      | none => exact hb
      | some l =>
          refine ⟨fun k x => ?_, hb.sep⟩
          unfold multiply
          by_cases hk : k = l
          · subst hk
            simp only [Function.update_self]
            exact mul_nonneg (val_nonneg (hpots p (List.mem_cons_self ..)) x) (hb.clique k x)
          · simp only [Function.update_of_ne hk]
            exact hb.clique k x

omit [DecidableEq K] in
/-- The product of the cliques, once all potentials have been entered. -/
theorem prod_val_filter {s : Potentials o K} {pots : List (Pot o K)}
    (h : ∀ l ∈ t.graph.labels, (s.clique l).Represents ((pots.foldl (enter t) unity).clique l))
    {x : Assignment} (hx : o.Complete x) :
    (t.graph.labels.map fun l => (s.clique l).val x).prod =
      ((pots.filter fun p => (home t p.vbls).isSome).map fun p => p.val x).prod := by
  have hcliques : (t.graph.labels.map fun l => (s.clique l).val x) =
      t.graph.labels.map fun l => (pots.foldl (enter t) unity).clique l x :=
    List.map_congr_left fun l hl =>
      (h l hl).val_eq (VariableSet.inRange_of_complete _ hx)
  have hprod := prod_foldl_enter_filter (t := t) pots unity x
  rw [List.prod_toFinset _ t.graph.labels_nodup] at hprod
  rw [hcliques, hprod]
  simp [unity]

/-- What `BNet_InitializePotentials` makes of the tables and observations. -/
theorem represents_initializePotentials (hpos : o.Discrete) {bn : BNet o K}
    (hpots : ∀ p ∈ bn.pots, Enterable p) (t : ElimTree o) (state : Potentials o K) :
    ∃ s, bn.initializePotentials t state = some s ∧
      Represents t s (bn.pots.foldl (enter t) unity) := by
  obtain ⟨s, hrun, hrep⟩ := (represents_createAll t state).multiplyAll hpos hpots
  refine ⟨s, ?_, hrep⟩
  rw [BNet.initializePotentials, BNet.initializePotentialsWith_eq, hrun]

/-- What `BNet_InitializePotentials` has made, where it goes through. -/
theorem represents_of_initializePotentials {bn : BNet o K} (hpots : ∀ p ∈ bn.pots, Enterable p)
    (t : ElimTree o) {state s : Potentials o K} (hrun : bn.initializePotentials t state = some s) :
    Represents t s (bn.pots.foldl (enter t) unity) := by
  rw [BNet.initializePotentials, BNet.initializePotentialsWith_eq] at hrun
  have hall : ∀ (pots : List (Pot o K)) (this : Potentials o K) (b : Beliefs CString Edge ℕ ℕ K),
      (∀ p ∈ pots, Enterable p) → Represents t this b →
      pots.foldlM (Potentials.multiplyIn (plain K) t) this = some s →
      Represents t s (pots.foldl (enter t) b) := by
    intro pots
    induction pots with
    | nil =>
        intro this b _ hrep hrun
        rw [List.foldlM_nil] at hrun
        exact Option.some.inj hrun ▸ hrep
    | cons p pots ih =>
        intro this b hpots hrep hrun
        rw [List.foldlM_cons] at hrun
        obtain ⟨mid, hmid, hrun⟩ := Option.bind_eq_some_iff.mp hrun
        have hp := hpots p (List.mem_cons_self ..)
        exact ih mid _ (fun q hq => hpots q (List.mem_cons_of_mem _ hq))
          (hrep.of_multiplyIn hp.sized hp.nonempty hmid) hrun
  exact hall bn.pots _ _ hpots (represents_createAll t state) hrun

omit [Field K] [DecidableEq K] in
/-- Every entry of a table that holds a constant is that constant. -/
theorem eq_of_mem_tabData {p : Pot o K} {c : K} (h : p.Represents fun _ => c) {a : K}
    (ha : a ∈ p.tabData) : a = c := by
  obtain ⟨x, hx, hentry⟩ := h.sized.exists_entry ha
  rw [h.entry_eq x hx] at hentry
  exact (Option.some.inj hentry).symm

end Plain

end Potentials

namespace BNet

open Potentials

variable {o : VariableOrdering}

/-- The tables and the observations. -/
theorem prod_pots {K : Type} [Field K] (this : BNet o K) (x : Assignment) :
    (this.pots.map fun p => p.val x).prod =
      (this.tables.map fun table => table.pot.val x).prod *
        (this.obs.map fun ob => ob.pot.val x).prod := by
  rw [pots, List.map_append, List.prod_append, List.map_map, List.map_map]
  rfl

/-- The variable `c` seen in state `1`. -/
def chainObservation : Observation chainOrdering ℚ :=
  ⟨chainOrdering.vbl 2, Pot.createTabular ((VariableSet.create chainOrdering).add
    (chainOrdering.vbl 2)) [0, 1], 1⟩

theorem enterable_chainTables : ∀ table ∈ chainTables, Enterable table.pot ∧
    table.allvbls.vars = table.family ∧ table.family.Nonempty ∧ ∀ a ∈ table.pot.tabData, 0 ≤ a := by
  have huniform : ∀ parents v, (uniformTable chainOrdering parents v).pot.Sized ∧
      ∀ a ∈ (uniformTable chainOrdering parents v).pot.tabData, 0 ≤ a := by
    intro parents v
    refine ⟨Pot.sized_createTabular (List.length_replicate ..), fun a ha => ?_⟩
    rw [List.eq_of_mem_replicate ha]
    exact one_half_pos.le
  have hvars : ∀ table ∈ chainTables, table.allvbls.vars = table.family ∧
      table.family.Nonempty := by decide
  intro table htable
  obtain ⟨hfamily, hne⟩ := hvars table htable
  have hsized : table.pot.Sized ∧ ∀ a ∈ table.pot.tabData, 0 ≤ a := by
    simp only [chainTables, List.mem_cons, List.not_mem_nil, or_false] at htable
    rcases htable with rfl | rfl | rfl | rfl <;> exact huniform _ _
  exact ⟨⟨hsized.1, hfamily.symm ▸ hne⟩, hfamily, hne, hsized.2⟩

/-- The network of the chain and its potentials. -/
theorem chain_pots (vo : VertexOrdering) (hvo : vo.vertices.Perm chainOrdering.labels) :
    ∃ bn, createList2 chainTables [chainObservation] = some bn ∧ bn.tables = chainTables ∧
      bn.obs = [chainObservation] ∧
      bn.buildElimTree QSort.insertion vo = some (chainTree vo) ∧
      ∀ p ∈ bn.pots, Enterable p ∧ (∃ l ∈ (chainTree vo).graph.labels,
        p.vbls.vars ⊆ (chainTree vo).clique l) ∧ ∀ a ∈ p.tabData, 0 ≤ a := by
  obtain ⟨bn, hrun, hcreated, htables, hobs, hordering, ht, hbuilt⟩ := chainTree_built vo hvo
    [chainObservation]
  refine ⟨bn, hrun, htables, hobs, ht, fun p hp => ?_⟩
  have hcover : ∀ table ∈ bn.tables, ∃ l ∈ (chainTree vo).graph.labels,
      table.allvbls.vars ⊆ (chainTree vo).clique l := by
    intro table htable
    obtain ⟨-, hfamily, hne, -⟩ := enterable_chainTables table (htables ▸ htable)
    rw [hfamily]
    exact hbuilt.exists_family_subset hordering hcreated htable hne
  rcases List.mem_append.mp hp with hp | hp
  · obtain ⟨table, htable, rfl⟩ := List.mem_map.mp hp
    obtain ⟨henter, -, -, hnonneg⟩ := enterable_chainTables table (htables ▸ htable)
    exact ⟨henter, hcover table htable, hnonneg⟩
  · rw [hobs, List.map_singleton, List.mem_singleton] at hp
    rw [hp]
    refine ⟨⟨Pot.sized_createTabular (by decide), by decide⟩, ?_, by decide⟩
    have hobserved : ∃ table ∈ bn.tables,
        chainObservation.pot.vbls.vars ⊆ table.allvbls.vars := by
      rw [htables]
      decide
    obtain ⟨table, htable, hsub⟩ := hobserved
    obtain ⟨l, hl, hsub'⟩ := hcover table htable
    exact ⟨l, hl, hsub.trans hsub'⟩

end BNet

end JunctionBox
