import JunctionBox.Inference.IntPotentials
import JunctionBox.Inference.MemoRuns
import JunctionBox.Inference.Schedule

/-!
# Messages in `int`

`MessagePass` with the `int` sizes and index tables of `IntTables`, and what is
built on it.  When all cliques have a size that fits an `int` and every variable
has a value, every set that the program enumerates or makes a table of fits too:
the sets of separators, of tables, and what is left of a clique without one of
these.  Then the program in `int` does what it does with natural numbers, call by
call and for plain and log tables alike (`initializePotentialsIntWith_of_fits`,
`messagePass_of_fits`).
-/

namespace JunctionBox

open Propagation

namespace IntTables

variable {o : VariableOrdering} {α : Type}

section Definitions

variable (A : Arith α)

/-- `find_marg_indices` and `find_mul_indices`. -/
def findIndices (this : Potentials o α) (v : CString) (sep : Edge) :
    Option (MulInd o × MulMemo o (MulInd o)) :=
  getMulInd (this.mulMemo sep.srcSink) (this.sep sep.srcSink).vbls (this.clique v).vbls

/-- `MessagePass` and `MessagePassLog`. -/
def messagePass (this : Potentials o α) (receiver caller : CString) (sep : Edge) :
    Option (Potentials o α) := do
  let margInd ← findIndices this caller sep
  let this := this.setMulMemo sep margInd.2
  let marg ← sumMarginTabular A (this.clique caller) margInd.1
  let updateRatio ← updateRatioTabular A marg (this.sep sep.srcSink)
  let mulInd ← findIndices this receiver sep
  let this := this.setMulMemo sep mulInd.2
  let pot ← Pot.Arithmetic.productTabular A updateRatio (this.clique receiver) (some mulInd.1)
  return this.store receiver pot sep marg

/-- `BNet_CollectEvidence` and `BNet_CollectEvidenceLog`. -/
def collectEvidence (t : ElimTree o) (this : Potentials o α) : Option (Potentials o α) :=
  collectEvidenceWith (messagePass A) t.graph this

/-- `BNet_DistributeEvidence` and `BNet_DistributeEvidenceLog`. -/
def distributeEvidence (t : ElimTree o) (this : Potentials o α) : Option (Potentials o α) :=
  distributeEvidenceWith (messagePass A) t.graph this

/-- `Pot_SumMarginTabularSingleVbl`, `Pot_SumMarginTabularSingleVblLog`. -/
def sumMarginTabularSingleVbl (p : Pot o α) (v : Variable) : Option (List α) := do
  let mi ← computeMargInd p.vbls ((VariableSet.create o).add v)
  let mi ← mi
  Pot.Arithmetic.sumRows A p mi

end Definitions

/-! ## Trees whose cliques fit -/

/-- The sizes of all cliques fit an `int`. -/
def CliquesFit (t : ElimTree o) : Prop :=
  ∀ l ∈ t.graph.labels, (t.elimSet l).toVariableSet.FitsInt

section Fits

variable {t : ElimTree o} {A : Arith α}

/-- The variables of a clique without some of them. -/
theorem fitsInt_xor (hpos : o.Discrete) {this other : VariableSet o} (h : this.FitsInt)
    (hsub : other.vars ⊆ this.vars) :
    (VariableSet.createFromBv (this.bv.xor other.bv) : VariableSet o).FitsInt := by
  rw [BitVector.xor_comm]
  exact h.xor hsub (VariableSet.getCardinality_pos hpos other).ne'

theorem fitsInt_mono (hpos : o.Discrete) {this other : VariableSet o} (h : other.FitsInt)
    (hsub : this.vars ⊆ other.vars) : this.FitsInt :=
  h.mono (VariableSet.getCardinality_pos hpos other).ne' hsub

theorem computeMargInd_of_fits (hpos : o.Discrete) {this target : VariableSet o}
    (h : this.FitsInt) (hsub : target.vars ⊆ this.vars) :
    computeMargInd this target = this.computeMargInd target :=
  computeMargInd_eq hsub (fitsInt_mono hpos h hsub) (fitsInt_xor hpos h hsub) h

theorem computeMulInd_of_fits (hpos : o.Discrete) {this target : VariableSet o}
    (h : target.FitsInt) (hsub : this.vars ⊆ target.vars) :
    computeMulInd this target = this.computeMulInd target := by
  refine computeMulInd_eq hsub (fitsInt_mono hpos h hsub) ?_ h
  rw [BitVector.xor_comm]
  exact fitsInt_xor hpos h hsub

theorem sumMarginTabularSingleVbl_of_fits (hpos : o.Discrete) {p : Pot o α} (h : p.vbls.FitsInt)
    {v : Variable} (hsub : ((VariableSet.create o).add v).vars ⊆ p.vbls.vars) :
    sumMarginTabularSingleVbl A p v = Pot.Arithmetic.sumMarginTabularSingleVbl A p v := by
  unfold sumMarginTabularSingleVbl Pot.Arithmetic.sumMarginTabularSingleVbl
  rw [computeMargInd_of_fits hpos h hsub]

/-- A memo computes for the target only. -/
theorem getMemoized_congr {β : Type} {compute compute' : VariableSet o → Option β}
    {target : VariableSet o} (h : compute target = compute' target) (this : MulMemo o β) :
    MulMemo.getMemoized compute this target = MulMemo.getMemoized compute' this target := by
  unfold MulMemo.getMemoized
  rw [h]

/-! ## Initialising -/

theorem sepSet_subset (hsep : t.SeparatorsAreIntersections) {e : Edge}
    (he : e ∈ t.graph.edgeList) : t.separatorOf e ⊆ t.clique e.src := by
  rw [ElimTree.separatorOf, hsep e he]
  exact Finset.inter_subset_left

theorem createAll_of_fits (hpos : o.Discrete) (hfits : CliquesFit t)
    (hsep : t.SeparatorsAreIntersections) (this : Potentials o α) :
    createAll A t this = this.createAll A t := by
  have hseps : ∀ e ∈ t.graph.edgeList, (t.sepSet e.srcSink).toVariableSet.FitsInt :=
    fun e he => fitsInt_mono hpos (hfits _ (Graph.ends_mem he).1) (sepSet_subset hsep he)
  have hedges : t.graph.edgeList.foldl
      (Potentials.createSeparatorWith (createTabularUnity A) t) this =
      t.graph.edgeList.foldl (Potentials.createSeparator A t) this := by
    refine List.foldl_ext _ _ _ fun s e he => ?_
    unfold Potentials.createSeparator Potentials.createSeparatorWith
    simp only [createTabularUnity_eq A (hseps e he)]
  unfold createAll Potentials.createAllWith Potentials.createAll
  rw [hedges]
  refine List.foldl_ext _ _ _ fun s l hl => ?_
  unfold Potentials.createClique Potentials.createCliqueWith
  simp only [createTabularUnity_eq A (hfits l hl)]

theorem multiplyIn_of_fits (hpos : o.Discrete) (hfits : CliquesFit t) {this : Potentials o α}
    (h : Potentials.Shaped t this) (p : Pot o α) :
    multiplyIn A t this p = Potentials.multiplyIn A t this p := by
  unfold multiplyIn Potentials.multiplyIn
  cases hfind : this.findClique t p.vbls with
  | none => rfl
  | some l =>
      have hl : l ∈ t.graph.labels := List.mem_of_find?_eq_some hfind
      have hfound := List.find?_some hfind
      have hsub := (VariableSet.containedIn_iff _ _).mp hfound
      have hclique := hfits l hl
      rw [← h.clique l hl] at hclique
      have hget : getMargInd (this.margMemo l) (this.clique l).vbls p.vbls =
          (this.margMemo l).getMargInd (this.clique l).vbls p.vbls :=
        getMemoized_congr (computeMargInd_of_fits hpos hclique hsub) _
      simp only [hget]

/-- `BNet_InitializePotentials` in `int` and with natural numbers. -/
theorem initializePotentialsIntWith_of_fits (hpos : o.Discrete) (hfits : CliquesFit t)
    (hsep : t.SeparatorsAreIntersections) (bn : BNet o α) (state : Potentials o α) :
    bn.initializePotentialsIntWith A t state = bn.initializePotentialsWith A t state := by
  rw [BNet.initializePotentialsIntWith_eq, BNet.initializePotentialsWith_eq,
    createAll_of_fits hpos hfits hsep]
  have hrun : ∀ (pots : List (Pot o α)) (s : Potentials o α), Potentials.Shaped t s →
      pots.foldlM (multiplyIn A t) s = pots.foldlM (Potentials.multiplyIn A t) s := by
    intro pots
    induction pots with
    | nil => exact fun _ _ => rfl
    | cons p pots ih =>
        intro s h
        rw [List.foldlM_cons, List.foldlM_cons, multiplyIn_of_fits hpos hfits h]
        cases hstep : Potentials.multiplyIn A t s p with
        | none => rfl
        | some next => exact ih next (h.multiplyIn hstep).1
  exact hrun _ _ (Potentials.shaped_createAll A t state)

/-! ## Messages -/

theorem findIndices_of_fits (hpos : o.Discrete) (hfits : CliquesFit t)
    (hsep : t.SeparatorsAreIntersections) {this : Potentials o α} (h : Potentials.Shaped t this)
    {m : Message CString Edge} (hm : t.Along m) :
    findIndices this m.sender m.sep = this.findIndices m.sender m.sep := by
  have hsub : t.separatorOf m.sep ⊆ t.clique m.sender := by
    rw [ElimTree.separatorOf, hsep _ hm.mem]
    rcases Sym2.eq_iff.mp hm.ends with ⟨hsrc, -⟩ | ⟨-, hsink⟩
    · exact hsrc ▸ Finset.inter_subset_left
    · exact hsink ▸ Finset.inter_subset_right
  have hclique := hfits _ hm.sender_mem
  unfold findIndices Potentials.findIndices
  rw [h.clique _ hm.sender_mem, h.sep _ hm.mem]
  exact getMemoized_congr (computeMulInd_of_fits hpos hclique hsub) _

/-- `MessagePass` in `int` and with natural numbers. -/
theorem messagePass_of_fits (hpos : o.Discrete) (hfits : CliquesFit t)
    (hsep : t.SeparatorsAreIntersections) {this : Potentials o α} (h : Potentials.Shaped t this)
    {m : Message CString Edge} (hm : t.Along m) :
    messagePass A this m.receiver m.sender m.sep =
      this.messagePassWith A m.receiver m.sender m.sep := by
  have hsepFits : (t.sepSet m.sep.srcSink).toVariableSet.FitsInt :=
    fitsInt_mono hpos (hfits _ (Graph.ends_mem hm.mem).1) (sepSet_subset hsep hm.mem)
  unfold messagePass Potentials.messagePassWith Potentials.findMargIndices
    Potentials.findMulIndices
  rw [findIndices_of_fits hpos hfits hsep h hm]
  cases hfind : this.findIndices m.sender m.sep with
  | none => rfl
  | some margInd =>
      obtain ⟨h₁, hvbls⟩ := h.findIndices hm.mem hfind
      rw [← hvbls] at hsepFits
      simp only [Option.bind_eq_bind, Option.bind_some, sumMarginTabular_eq A hsepFits]
      cases hmarg : Pot.Arithmetic.sumMarginTabular A
        ((this.setMulMemo m.sep margInd.2).clique m.sender) margInd.1 with
      | none => rfl
      | some marg =>
          have hmargFits : marg.vbls.FitsInt := by
            obtain ⟨values, -, rfl⟩ := Option.map_eq_some_iff.mp hmarg
            exact hsepFits
          have hreply := findIndices_of_fits hpos hfits hsep h₁ hm.reply
          simp only [Message.reply] at hreply
          simp only [Option.bind_some, updateRatioTabular_eq A hmargFits, hreply]

/-- A sequence of messages. -/
theorem passEach_of_fits (hpos : o.Discrete) (hfits : CliquesFit t)
    (hsep : t.SeparatorsAreIntersections) {this : Potentials o α} (h : Potentials.Shaped t this)
    {ms : List (Message CString Edge)} (hms : ∀ m ∈ ms, t.Along m) :
    passEach (messagePass A) ms this = passEach (Potentials.messagePassWith A) ms this := by
  induction ms generalizing this with
  | nil => rfl
  | cons m ms ih =>
      have hm := hms m (List.mem_cons_self ..)
      unfold passEach at ih ⊢
      rw [List.foldlM_cons, List.foldlM_cons, messagePass_of_fits hpos hfits hsep h hm]
      cases hstep : this.messagePassWith A m.receiver m.sender m.sep with
      | none => rfl
      | some next =>
          exact ih (h.messagePassWith hm hstep).1 fun m' hm' => hms m' (List.mem_cons_of_mem _ hm')

/-- Messages keep the shape. -/
theorem shaped_of_passEach {this next : Potentials o α} (h : Potentials.Shaped t this)
    {ms : List (Message CString Edge)} (hms : ∀ m ∈ ms, t.Along m)
    (hrun : passEach (Potentials.messagePassWith A) ms this = some next) :
    Potentials.Shaped t next :=
  PartialLoops.foldlM_invariant (Potentials.Shaped t) hrun h fun _ m _ hm hs hstep =>
    (hs.messagePassWith (hms m hm) hstep).1

/-- Both passes in `int` and with natural numbers. -/
theorem passes_of_fits (hpos : o.Discrete) (hfits : CliquesFit t)
    (hsep : t.SeparatorsAreIntersections) (htree : t.IsTree) {root : CString}
    (hroot : t.graph.labels.head? = some root) {this : Potentials o α}
    (h : Potentials.Shaped t this) :
    (collectEvidence A t this).bind (distributeEvidence A t) =
      (collectEvidenceWith (Potentials.messagePassWith A) t.graph this).bind
        (distributeEvidenceWith (Potentials.messagePassWith A) t.graph) := by
  obtain ⟨R⟩ := htree.isTreeOn.exists_rooting (List.mem_of_mem_head? hroot)
  obtain ⟨ms, hcollect, -, hms⟩ := collectEvidence_eq htree hroot R
  have halong : ∀ m ∈ ms, t.Along m := fun m hm => (hms m hm).2
  have hout : ∀ m ∈ outward t.graph root, t.Along m := by
    intro m hm
    obtain ⟨n, hn, rfl⟩ := List.mem_map.mp hm
    obtain ⟨he, hends⟩ := Graph.mem_neighbors_ends hn
    exact ⟨he, hends.trans Sym2.eq_swap⟩
  unfold collectEvidence
  rw [hcollect, hcollect, passEach_of_fits hpos hfits hsep h halong]
  cases hrun : passEach (Potentials.messagePassWith A) ms this with
  | none => rfl
  | some next =>
      rw [Option.bind_some, Option.bind_some, distributeEvidence,
        distributeEvidence_eq htree hroot, distributeEvidence_eq htree hroot,
        passEach_of_fits hpos hfits hsep (shaped_of_passEach h halong hrun) hout]

end Fits

end IntTables

end JunctionBox
