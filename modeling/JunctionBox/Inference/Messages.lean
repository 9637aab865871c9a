import JunctionBox.Inference.Potentials

/-!
# Passing a message

`MessagePass` marginalises the caller onto the separator, divides by the old
separator, multiplies the ratio into the receiver and keeps the marginal as the
new separator.  Both index tables come from the memo of the separator.

Along the edges of a tree with proper separators this is `Propagation.pass` on
the belief states that the tables represent (`Represents.messagePass`), whatever
the memos have seen before.
-/

namespace JunctionBox

open Propagation

/-- One call of `pass` for every message of a list: receiver, caller, separator. -/
def passEach {σ : Type} (pass : σ → CString → CString → Edge → Option σ)
    (ms : List (Message CString Edge)) (s : σ) : Option σ :=
  ms.foldlM (fun s m => pass s m.receiver m.sender m.sep) s

theorem passEach_append {σ : Type} (pass : σ → CString → CString → Edge → Option σ)
    (ms ms' : List (Message CString Edge)) (s : σ) :
    passEach pass (ms ++ ms') s = (passEach pass ms s).bind (passEach pass ms') :=
  PartialLoops.foldlM_append ms ms' s

namespace Potentials

variable {o : VariableOrdering} {α : Type}

section Definitions

variable (A : Arith α)

/-- `find_marg_indices` and `find_mul_indices`: the table that spreads the separator over
a clique at one of its ends. -/
def findIndices (this : Potentials o α) (v : CString) (sep : Edge) :
    Option (MulInd o × MulMemo o (MulInd o)) :=
  (this.mulMemo sep.srcSink).getMulInd (this.sep sep.srcSink).vbls (this.clique v).vbls

/-- `find_marg_indices`. -/
def findMargIndices (this : Potentials o α) (caller : CString) (sep : Edge) :
    Option (MulInd o × MulMemo o (MulInd o)) := this.findIndices caller sep

/-- `find_mul_indices`. -/
def findMulIndices (this : Potentials o α) (receiver : CString) (sep : Edge) :
    Option (MulInd o × MulMemo o (MulInd o)) := this.findIndices receiver sep

/-- The separator's memo after a look-up. -/
def setMulMemo (this : Potentials o α) (sep : Edge) (memo : MulMemo o (MulInd o)) :
    Potentials o α :=
  { this with mulMemo := Function.update this.mulMemo sep.srcSink memo }

/-- The receiver's product, and `sep->pot = marg`. -/
def store (this : Potentials o α) (receiver : CString) (pot : Pot o α) (sep : Edge)
    (marg : Pot o α) : Potentials o α :=
  { this with
    clique := Function.update this.clique receiver pot
    sep := Function.update this.sep sep.srcSink marg }

/-- `MessagePass` and `MessagePassLog`. -/
def messagePassWith (this : Potentials o α) (receiver caller : CString) (sep : Edge) :
    Option (Potentials o α) := do
  let margInd ← this.findMargIndices caller sep
  let this := this.setMulMemo sep margInd.2
  let marg ← Pot.Arithmetic.sumMarginTabular A (this.clique caller) margInd.1
  let updateRatio ← Pot.Arithmetic.updateRatioTabular A marg (this.sep sep.srcSink)
  let mulInd ← this.findMulIndices receiver sep
  let this := this.setMulMemo sep mulInd.2
  let pot ← Pot.Arithmetic.productTabular A updateRatio (this.clique receiver) (some mulInd.1)
  return this.store receiver pot sep marg

end Definitions

/-- `MessagePass`. -/
def messagePass {K : Type} [Field K] [DecidableEq K] (this : Potentials o K)
    (receiver caller : CString) (sep : Edge) : Option (Potentials o K) :=
  this.messagePassWith (plain K) receiver caller sep

/-- A sequence of messages. -/
def passMessages (A : Arith α) (this : Potentials o α) (ms : List (Message CString Edge)) :
    Option (Potentials o α) := passEach (messagePassWith A) ms this

end Potentials

namespace ElimTree

variable {o : VariableOrdering}

/-- The message goes over an edge of the tree, in one direction or the other. -/
structure Along (t : ElimTree o) (m : Message CString Edge) : Prop where
  mem : m.sep ∈ t.graph.edgeList
  ends : s(m.sep.src, m.sep.sink) = s(m.sender, m.receiver)

/-- Every separator is a non-empty proper subset of both adjacent cliques. -/
structure ProperSeparators (t : ElimTree o) : Prop where
  nonempty : ∀ e ∈ t.graph.edgeList, (t.separatorOf e).Nonempty
  src : ∀ e ∈ t.graph.edgeList, t.separatorOf e ⊂ t.clique e.src
  sink : ∀ e ∈ t.graph.edgeList, t.separatorOf e ⊂ t.clique e.sink

variable {t : ElimTree o} {m : Message CString Edge}

theorem Along.reply (h : t.Along m) : t.Along m.reply :=
  ⟨h.mem, h.ends.trans Sym2.eq_swap⟩

theorem Along.sender_mem (h : t.Along m) : m.sender ∈ t.graph.labels := by
  have hends := Graph.ends_mem h.mem
  rcases Sym2.eq_iff.mp h.ends with ⟨hsrc, -⟩ | ⟨-, hsink⟩
  · exact hsrc ▸ hends.1
  · exact hsink ▸ hends.2

theorem Along.receiver_mem (h : t.Along m) : m.receiver ∈ t.graph.labels := h.reply.sender_mem

theorem ProperSeparators.sender (hproper : t.ProperSeparators) (h : t.Along m) :
    t.separatorOf m.sep ⊂ t.clique m.sender := by
  rcases Sym2.eq_iff.mp h.ends with ⟨hsrc, -⟩ | ⟨-, hsink⟩
  · exact hsrc ▸ hproper.src _ h.mem
  · exact hsink ▸ hproper.sink _ h.mem

theorem ProperSeparators.receiver (hproper : t.ProperSeparators) (h : t.Along m) :
    t.separatorOf m.sep ⊂ t.clique m.receiver := hproper.sender h.reply

end ElimTree

namespace Potentials

section Shape

variable {o : VariableOrdering} {α : Type} {t : ElimTree o} {s : Potentials o α} {e : Edge}

/-- A memo whose tables are right keeps the shape. -/
theorem Shaped.setMulMemo (h : Shaped t s) (he : e ∈ t.graph.edgeList)
    {memo : MulMemo o (MulInd o)}
    (hcons : MulMemo.Consistent (t.sepSet e.srcSink).toVariableSet.computeMulInd memo) :
    Shaped t (s.setMulMemo e memo) := by
  refine ⟨h.clique, h.sep, h.margMemo, fun e' he' => ?_⟩
  show MulMemo.Consistent _ (Function.update s.mulMemo e.srcSink memo e'.srcSink)
  by_cases heq : e'.srcSink = e.srcSink
  · rw [Graph.eq_of_srcSink_eq he' he heq, Function.update_self]
    exact hcons
  · rw [Function.update_of_ne heq]
    exact h.mulMemo e' he'

/-- Storing the results of a message keeps the shape. -/
theorem Shaped.store (h : Shaped t s) {receiver : CString} {pot marg : Pot o α}
    (hpot : pot.vbls = (s.clique receiver).vbls)
    (hmarg : marg.vbls = (t.sepSet e.srcSink).toVariableSet) :
    Shaped t (s.store receiver pot e marg) := by
  refine ⟨fun l hl => ?_, fun e' he' => ?_, h.margMemo, h.mulMemo⟩
  · show (Function.update s.clique receiver pot l).vbls = _
    by_cases heq : l = receiver
    · rw [heq, Function.update_self, hpot, ← heq, h.clique l hl]
    · rw [Function.update_of_ne heq, h.clique l hl]
  · show (Function.update s.sep e.srcSink marg e'.srcSink).vbls = _
    by_cases heq : e'.srcSink = e.srcSink
    · rw [heq, Function.update_self, hmarg]
    · rw [Function.update_of_ne heq, h.sep e' he']

end Shape

section Plain

variable {o : VariableOrdering} {K : Type} [Field K] [DecidableEq K] {t : ElimTree o}

omit [Field K] [DecidableEq K] in
/-- Looking an index table up changes nothing but the memo. -/
theorem Represents.findIndices {this : Potentials o K} {b : Beliefs CString Edge ℕ ℕ K}
    (h : Represents t this b) (hproper : t.ProperSeparators) {m : Message CString Edge}
    (hm : t.Along m) :
    ∃ mi memo, this.findIndices m.sender m.sep = some (mi, memo) ∧
      mi.vbls = (this.sep m.sep.srcSink).vbls ∧
      mi.Indexes (this.sep m.sep.srcSink).vbls (this.clique m.sender).vbls ∧
      Represents t (this.setMulMemo m.sep memo) b := by
  have hsep := h.shaped.sep _ hm.mem
  have hclique := h.shaped.clique _ hm.sender_mem
  obtain ⟨mi, memo, hget, hcons, hvbls, hindexes⟩ :=
    MulMemo.getMulInd_eq (h.shaped.mulMemo _ hm.mem)
    (hproper.nonempty _ hm.mem) (show (t.sepSet m.sep.srcSink).toVariableSet.vars ⊂
      (t.elimSet m.sender).toVariableSet.vars from hproper.sender hm)
  refine ⟨mi, memo, ?_, hvbls.trans hsep.symm, ?_, h.shaped.setMulMemo hm.mem hcons,
    h.isScoped, h.clique, h.sep⟩
  · unfold Potentials.findIndices
    rw [hsep, hclique]
    exact hget
  · rw [hsep, hclique]
    exact hindexes

omit [Field K] [DecidableEq K] in
/-- Storing the tables of the new factors. -/
theorem Represents.store {this : Potentials o K} {b : Beliefs CString Edge ℕ ℕ K}
    (h : Represents t this b) {m : Message CString Edge} (hm : t.Along m) {pot marg : Pot o K}
    {b' : Beliefs CString Edge ℕ ℕ K} (hscoped : Scoped t.clique t.separatorOf b')
    (hclique : ∀ k ≠ m.receiver, b'.clique k = b.clique k) (hsep : ∀ e ≠ m.sep, b'.sep e = b.sep e)
    (hpotvbls : pot.vbls = (this.clique m.receiver).vbls)
    (hpot : pot.Represents (b'.clique m.receiver))
    (hmargvbls : marg.vbls = (this.sep m.sep.srcSink).vbls)
    (hmarg : marg.Represents (b'.sep m.sep)) :
    Represents t (this.store m.receiver pot m.sep marg) b' := by
  have hother : ∀ {e}, e ∈ t.graph.edgeList → e ≠ m.sep → e.srcSink ≠ m.sep.srcSink :=
    fun he hne heq => hne (Graph.eq_of_srcSink_eq he hm.mem heq)
  refine ⟨h.shaped.store hpotvbls (hmargvbls.trans (h.shaped.sep _ hm.mem)), hscoped,
    fun k hk => ?_, fun e he => ?_⟩
  · show (Function.update this.clique m.receiver pot k).Represents _
    by_cases heq : k = m.receiver
    · rw [heq, Function.update_self]
      exact hpot
    · rw [Function.update_of_ne heq, hclique k heq]
      exact h.clique k hk
  · show (Function.update this.sep m.sep.srcSink marg e.srcSink).Represents _
    by_cases heq : e = m.sep
    · rw [heq, Function.update_self]
      exact hmarg
    · rw [Function.update_of_ne (hother he heq), hsep e heq]
      exact h.sep e he

/-- **`MessagePass`** passes a message. -/
theorem Represents.messagePass {this : Potentials o K} {b : Beliefs CString Edge ℕ ℕ K}
    (h : Represents t this b) (hproper : t.ProperSeparators) {m : Message CString Edge}
    (hm : t.Along m) :
    ∃ next, this.messagePass m.receiver m.sender m.sep = some next ∧
      Represents t next (pass o.dom t.clique t.separatorOf m b) := by
  obtain ⟨margInd, memo₁, hfind₁, hvbls₁, hindexes₁, h₁⟩ := h.findIndices hproper hm
  have hsep := h.shaped.sep _ hm.mem
  have hsender := h.shaped.clique _ hm.sender_mem
  have hscoped : DependsOn (b.clique m.sender) ((this.clique m.sender).vbls.vars : Set ℕ) := by
    rw [hsender]
    exact h.isScoped.clique m.sender
  obtain ⟨marg, hmarg, hmargvbls, hmargrep⟩ := Pot.sumMarginTabular_represents
    (h.clique _ hm.sender_mem) hscoped (hvbls₁.symm ▸ hindexes₁)
  rw [hvbls₁] at hmargvbls hmargrep
  have hmargrep' : marg.Represents (marginal o.dom t.clique t.separatorOf m b) := by
    rw [hsender, hsep] at hmargrep
    exact hmargrep
  obtain ⟨updateRatio, hratio, hratiovbls, hratiorep⟩ := Pot.updateRatioTabular_represents
    hmargrep' (h.sep _ hm.mem) hmargvbls
  obtain ⟨mulInd, memo₂, hfind₂, -, hindexes₂, h₂⟩ := h₁.findIndices hproper hm.reply
  have hindexes₂' : mulInd.Indexes updateRatio.vbls (this.clique m.receiver).vbls := by
    rw [hratiovbls, hmargvbls]
    exact hindexes₂
  obtain ⟨pot, hpot, hpotvbls, hpotrep⟩ := Pot.productTabular_represents hratiorep
    (h.clique _ hm.receiver_mem) hindexes₂'
  refine ⟨((this.setMulMemo m.sep memo₁).setMulMemo m.sep memo₂).store m.receiver pot m.sep marg,
    ?_, ?_⟩
  · unfold Potentials.messagePass messagePassWith
    simp only [Option.bind_eq_bind]
    rw [show this.findMargIndices m.sender m.sep = _ from hfind₁]
    simp only [Option.bind_some]
    rw [show Pot.Arithmetic.sumMarginTabular (plain K)
      ((this.setMulMemo m.sep memo₁).clique m.sender) margInd = _ from hmarg]
    simp only [Option.bind_some]
    rw [show Pot.Arithmetic.updateRatioTabular (plain K) marg
      ((this.setMulMemo m.sep memo₁).sep m.sep.srcSink) = _ from hratio]
    simp only [Option.bind_some]
    rw [show (this.setMulMemo m.sep memo₁).findMulIndices m.receiver m.sep = _ from hfind₂]
    simp only [Option.bind_some]
    rw [show Pot.Arithmetic.productTabular (plain K) updateRatio
      (((this.setMulMemo m.sep memo₁).setMulMemo m.sep memo₂).clique m.receiver) (some mulInd) = _
      from hpot]
    rfl
  · apply h₂.store hm (h.isScoped.pass (hproper.receiver hm).subset)
      (fun k hk => pass_clique_of_ne hk b) (fun e he => pass_sep_of_ne he b) hpotvbls ?_ hmargvbls
    · rw [pass_sep_self]
      exact hmargrep'
    · rw [pass_clique_receiver]
      exact hpotrep

/-- A sequence of messages. -/
theorem Represents.passMessages {this : Potentials o K} {b : Beliefs CString Edge ℕ ℕ K}
    (h : Represents t this b) (hproper : t.ProperSeparators) {ms : List (Message CString Edge)}
    (hms : ∀ m ∈ ms, t.Along m) :
    ∃ next, this.passMessages (plain K) ms = some next ∧
      Represents t next (passAll o.dom t.clique t.separatorOf ms b) := by
  induction ms generalizing this b with
  | nil => exact ⟨this, rfl, h⟩
  | cons m ms ih =>
      obtain ⟨mid, hmid, hrep⟩ := h.messagePass hproper (hms m (List.mem_cons_self ..))
      obtain ⟨next, hrun, hnext⟩ := ih hrep fun m' hm' => hms m' (List.mem_cons_of_mem _ hm')
      refine ⟨next, ?_, hnext⟩
      unfold Potentials.passMessages passEach at hrun ⊢
      rw [List.foldlM_cons, show this.messagePassWith (plain K) m.receiver m.sender m.sep = _
        from hmid]
      exact hrun

/-- The product of the clique entries over the product of the separator entries. -/
def joint (t : ElimTree o) (this : Potentials o K) (x : Assignment) : K :=
  (t.graph.labels.map fun l => (this.clique l).val x).prod /
    (t.graph.edgeList.map fun e => (this.sep e.srcSink).val x).prod

theorem nodup_edgeList (g : Graph) : g.edgeList.Nodup := List.Nodup.of_map _ g.nodup_srcSink

omit [DecidableEq K] in
theorem Represents.joint_eq {this : Potentials o K} {b : Beliefs CString Edge ℕ ℕ K}
    (h : Represents t this b) {x : Assignment} (hx : o.Complete x) :
    this.joint t x =
      Propagation.joint t.graph.labels.toFinset t.graph.edgeList.toFinset b x := by
  have hcliques : (t.graph.labels.map fun l => (this.clique l).val x) =
      t.graph.labels.map fun l => b.clique l x := List.map_congr_left fun l hl =>
    (h.clique l hl).val_eq (VariableSet.inRange_of_complete _ hx)
  have hseps : (t.graph.edgeList.map fun e => (this.sep e.srcSink).val x) =
      t.graph.edgeList.map fun e => b.sep e x := List.map_congr_left fun e he =>
    (h.sep e he).val_eq (VariableSet.inRange_of_complete _ hx)
  unfold joint Propagation.joint
  rw [hcliques, hseps, List.prod_toFinset _ t.graph.labels_nodup,
    List.prod_toFinset _ (nodup_edgeList t.graph)]

theorem inDomain_of_complete (t : ElimTree o) {x : Assignment} (hx : o.Complete x) :
    InDomain o.dom t.clique x := fun _ i hi => hx i (ElimSet.lt_size_of_mem_vars hi)

section Ordered

variable [LinearOrder K] [IsStrictOrderedRing K]

/-- The clique is at one end of the edge. -/
def AtEnd (e : Edge) (k : CString) : Prop := k = e.src ∨ k = e.sink

omit [DecidableEq K] in
/-- What every sequence of messages preserves, at one complete assignment. -/
theorem passAll_invariant {ms : List (Message CString Edge)} (hms : ∀ m ∈ ms, t.Along m)
    (hloopless : ∀ e ∈ t.graph.edgeList, e.src ≠ e.sink) {x : Assignment} (hx : o.Complete x)
    {b : Beliefs CString Edge ℕ ℕ K} (hb : Nonneg b) (hsupport : Supported AtEnd b x) :
    let b' := passAll o.dom t.clique t.separatorOf ms b
    Supported AtEnd b' x ∧
      Propagation.joint t.graph.labels.toFinset t.graph.edgeList.toFinset b' x =
        Propagation.joint t.graph.labels.toFinset t.graph.edgeList.toFinset b x := by
  induction ms generalizing b with
  | nil => exact ⟨hsupport, rfl⟩
  | cons m ms ih =>
      have hm := hms m (List.mem_cons_self ..)
      have hdom := inDomain_of_complete t hx
      have hends : ∀ k, AtEnd m.sep k → k = m.sender ∨ k = m.receiver := by
        rintro k (rfl | rfl)
        · rcases Sym2.eq_iff.mp hm.ends with ⟨hsrc, -⟩ | ⟨hsrc, -⟩
          · exact Or.inl hsrc
          · exact Or.inr hsrc
        · rcases Sym2.eq_iff.mp hm.ends with ⟨-, hsink⟩ | ⟨-, hsink⟩
          · exact Or.inr hsink
          · exact Or.inl hsink
      have hne : m.sender ≠ m.receiver := by
        intro heq
        have hends := hm.ends
        rw [heq] at hends
        rcases Sym2.eq_iff.mp hends with ⟨hsrc, hsink⟩ | ⟨hsrc, hsink⟩ <;>
          exact hloopless _ hm.mem (hsrc.trans hsink.symm)
      obtain ⟨hsupport', hjoint⟩ := ih (fun m' hm' => hms m' (List.mem_cons_of_mem _ hm'))
        (show Nonneg (pass o.dom t.clique t.separatorOf m b) from hb.pass m)
        (hsupport.pass hb hends hne hdom)
      refine ⟨hsupport', hjoint.trans ?_⟩
      exact joint_pass hb (List.mem_toFinset.mpr hm.sender_mem)
        (List.mem_toFinset.mpr hm.receiver_mem) (List.mem_toFinset.mpr hm.mem) hdom

/-- From the potentials of `BNet_InitializePotentials`, which goes through when every variable has
a value, any sequence of messages over edges of the tree leaves the quotient of cliques and
separators unchanged at every complete assignment, and where a separator is zero both its cliques
are. -/
theorem passMessages_joint {bn : BNet o K}
    (hpots : ∀ p ∈ bn.pots, Enterable p) (hnonneg : ∀ p ∈ bn.pots, ∀ a ∈ p.tabData, 0 ≤ a)
    (htree : t.IsTree) (hproper : t.ProperSeparators) (state : Potentials o K)
    {ms : List (Message CString Edge)} (hms : ∀ m ∈ ms, t.Along m) :
    (o.Discrete → ∃ s₀, bn.initializePotentials t state = some s₀) ∧
      ∀ s₀, bn.initializePotentials t state = some s₀ →
        ∃ s, s₀.passMessages (plain K) ms = some s ∧ ∀ x, o.Complete x →
          s.joint t x = s₀.joint t x ∧
          ∀ e ∈ t.graph.edgeList, (s.sep e.srcSink).val x = 0 →
            (s.clique e.src).val x = 0 ∧ (s.clique e.sink).val x = 0 := by
  refine ⟨fun hpos => ?_, fun s₀ hinit => ?_⟩
  · obtain ⟨s₀, hinit, -⟩ := represents_initializePotentials hpos hpots t state
    exact ⟨s₀, hinit⟩
  have hrep₀ := represents_of_initializePotentials hpots t hinit
  obtain ⟨s, hrun, hrep⟩ := hrep₀.passMessages hproper hms
  refine ⟨s, hrun, fun x hx => ?_⟩
  have hunity : Nonneg (unity : Beliefs CString Edge ℕ ℕ K) :=
    ⟨fun _ _ => zero_le_one, fun _ _ => zero_le_one⟩
  have hstart : Supported AtEnd (bn.pots.foldl (enter t) unity) x := by
    intro e k _ hzero
    rw [sep_foldl_enter] at hzero
    exact absurd hzero one_ne_zero
  obtain ⟨hsupport, hjoint⟩ := passAll_invariant hms htree.loopless hx
    (nonneg_foldl_enter hnonneg hunity) hstart
  refine ⟨by rw [hrep.joint_eq hx, hrep₀.joint_eq hx, hjoint], fun e he hzero => ?_⟩
  have hends := Graph.ends_mem he
  rw [(hrep.sep e he).val_eq (VariableSet.inRange_of_complete _ hx)] at hzero
  rw [(hrep.clique _ hends.1).val_eq (VariableSet.inRange_of_complete _ hx),
    (hrep.clique _ hends.2).val_eq (VariableSet.inRange_of_complete _ hx)]
  exact ⟨hsupport e _ (Or.inl rfl) hzero, hsupport e _ (Or.inr rfl) hzero⟩

end Ordered

end Plain

/-! ## A run on the chain -/

open BNet

theorem properSeparators_chainTree : (chainTree chainVertices).ProperSeparators :=
  ⟨by decide +kernel, by decide +kernel, by decide +kernel⟩

/-- A message over every edge, and one back. -/
def bothWays (g : Graph) : List (Message CString Edge) :=
  g.edgeList.flatMap fun e => [⟨e.src, e.sink, e⟩, ⟨e.sink, e.src, e⟩]

theorem along_of_mem_bothWays {o : VariableOrdering} {t : ElimTree o} {m : Message CString Edge}
    (hm : m ∈ bothWays t.graph) : t.Along m := by
  obtain ⟨e, he, hm⟩ := List.mem_flatMap.mp hm
  rcases List.mem_cons.mp hm with rfl | hm
  · exact ⟨he, Sym2.eq_swap⟩
  · rw [List.mem_singleton.mp hm]
    exact ⟨he, rfl⟩

theorem passMessages_joint_chain :
    ∃ bn t s₀ s, createList2 chainTables [chainObservation] = some bn ∧
      bn.buildElimTree QSort.insertion chainVertices = some t ∧
      bn.initializePotentials t (unset chainOrdering ℚ) = some s₀ ∧
      s₀.passMessages (plain ℚ) (bothWays t.graph) = some s ∧ ∀ x, chainOrdering.Complete x →
        s.joint t x = s₀.joint t x ∧
        ∀ e ∈ t.graph.edgeList, (s.sep e.srcSink).val x = 0 →
          (s.clique e.src).val x = 0 ∧ (s.clique e.sink).val x = 0 := by
  obtain ⟨bn, hrun, -, -, ht, hpots⟩ := chain_pots chainVertices (List.Perm.refl _)
  obtain ⟨bn', -, -, -, -, -, -, hbuilt⟩ := chainTree_built chainVertices
    (List.Perm.refl _) []
  obtain ⟨hthrough, hmessages⟩ := passMessages_joint (t := chainTree chainVertices)
    (fun p hp => (hpots p hp).1) (fun p hp => (hpots p hp).2.2) hbuilt.isTree
    properSeparators_chainTree (unset chainOrdering ℚ) (fun m hm => along_of_mem_bothWays hm)
  obtain ⟨s₀, hs₀⟩ := hthrough (by decide)
  obtain ⟨s, hs, hjoint⟩ := hmessages s₀ hs₀
  exact ⟨bn, _, s₀, s, hrun, ht, hs₀, hs, hjoint⟩

end Potentials

end JunctionBox
