import JunctionBox.Inference.Messages

/-!
# The memos along a run

A memo is consulted with two sets of variables and keyed by one of them.  That
is enough as long as the other one is always the same: the separator's for the
memo of a separator, the clique's for the memo of a clique.  Both are kept by
every step of a run, although a message replaces the separator's potential
(`Reached.shaped`), so that each look-up returns what computing the indices
again would (`Reached.memos_transparent`).

A `MargMemo` compares keys without their padding bits but stores them in what
it returns.  Its index structures are the same up to these bits, and equal for
tables whose sets have none on.
-/

namespace JunctionBox

namespace BitVector

variable {size : ℕ}

/-- No padding bit is on. -/
def Unpadded (this : BitVector size) : Prop := ∀ index, size ≤ index → this.on index = false

theorem unpadded_create : (create size false).Unpadded := fun index _ => on_create index

theorem Unpadded.setBitOn {this : BitVector size} (h : this.Unpadded) {i : ℕ} (hi : i < size) :
    (this.setBitOn i).Unpadded := by
  intro index hindex
  rw [on_setBitOn _ hi, h index hindex, Bool.or_false, decide_eq_false_iff_not]
  omega

/-- Vectors without padding bits are equal when `BitVector_Equals` says so. -/
theorem Unpadded.eq {this other : BitVector size} (h : this.Unpadded) (h' : other.Unpadded)
    (hequals : this.equals other = true) : this = other := by
  have hon : ∀ index, this.on index = other.on index := by
    intro index
    by_cases hindex : index < size
    · exact (equals_iff this other).mp hequals index hindex
    · rw [h index (by omega), h' index (by omega)]
  have hbits : this.bits = other.bits := by
    refine List.ext_getElem (this.length_bits.trans other.length_bits.symm) fun k hk hk' => ?_
    refine BitVec.eq_of_getLsbD_eq fun j hj => ?_
    have hbit := hon (k * charBit + j)
    have hdiv : (k * charBit + j) / charBit = k := by
      unfold charBit
      omega
    have hmod : (k * charBit + j) % charBit = j := by
      unfold charBit
      omega
    simpa only [on_eq_getLsbD, hdiv, hmod, List.getD_eq_getElem?_getD,
      List.getElem?_eq_getElem hk, List.getElem?_eq_getElem hk', Option.getD_some] using hbit
  cases this
  cases other
  simp only at hbits
  simp only [hbits]

end BitVector

namespace VariableSet

variable {o : VariableOrdering}

/-- `VariableSet_Create` and `VariableSet_Add` leave the padding bits off. -/
theorem unpadded_create : (create o).bv.Unpadded := BitVector.unpadded_create

theorem unpadded_add {this : VariableSet o} (h : this.bv.Unpadded) (v : Variable) :
    (this.add v).bv.Unpadded := by
  unfold add
  split
  · next indx hindx =>
      exact BitVector.Unpadded.setBitOn h (VariableOrdering.getVariableRank_lt hindx).1
  · exact h

end VariableSet

namespace Potentials

open Propagation

variable {o : VariableOrdering} {α : Type} {bn : BNet o α} {t : ElimTree o}

/-- The states of a run: `BNet_InitializePotentials` or its Log version, from whatever was there
before, and then `MessagePass` and `MessagePassLog` along edges of the tree, in any order. -/
inductive Reached (bn : BNet o α) (t : ElimTree o) : Potentials o α → Prop
  | init (A : Arith α) (state : Potentials o α) {s : Potentials o α} :
      bn.initializePotentialsWith A t state = some s → Reached bn t s
  | pass (A : Arith α) {s next : Potentials o α} {m : Message CString Edge} :
      Reached bn t s → t.Along m →
      s.messagePassWith A m.receiver m.sender m.sep = some next → Reached bn t next

/-! ## One step -/

/-- Entering a table keeps the shape, and at most its key comes into a memo. -/
theorem Shaped.multiplyIn {A : Arith α} {s next : Potentials o α} {p : Pot o α}
    (h : Shaped t s) (hrun : multiplyIn A t s p = some next) :
    Shaped t next ∧
      ∀ l ∈ t.graph.labels, ∀ me ∈ next.margMemo l, me ∈ s.margMemo l ∨ me.1 = p.vbls.bv := by
  have hvbls := vbls_multiplyIn hrun
  unfold Potentials.multiplyIn at hrun
  split at hrun
  · obtain rfl := Option.some.inj hrun
    exact ⟨h, fun l _ me hme => Or.inl hme⟩
  · next curVertex hfind =>
      obtain ⟨⟨mi, memo⟩, hmemo, hrun⟩ := Option.bind_eq_some_iff.mp hrun
      obtain ⟨pot, -, hrun⟩ := Option.bind_eq_some_iff.mp hrun
      have hcur : curVertex ∈ t.graph.labels := List.mem_of_find?_eq_some hfind
      rw [MulMemo.getMargInd, h.clique curVertex hcur] at hmemo
      obtain ⟨hconsistent, -, hkeys⟩ := (h.margMemo curVertex hcur).of_getMemoized hmemo
      obtain rfl := Option.some.inj hrun
      refine ⟨⟨fun l hl => (hvbls l).trans (h.clique l hl), h.sep, fun l hl => ?_, h.mulMemo⟩,
        fun l hl me hme => ?_⟩
      · show MulMemo.Consistent _ (Function.update s.margMemo curVertex memo l)
        by_cases heq : l = curVertex
        · rw [heq, Function.update_self]
          exact hconsistent
        · rw [Function.update_of_ne heq]
          exact h.margMemo l hl
      · replace hme : me ∈ Function.update s.margMemo curVertex memo l := hme
        by_cases heq : l = curVertex
        · rw [heq, Function.update_self] at hme
          rw [heq]
          exact hkeys me hme
        · rw [Function.update_of_ne heq] at hme
          exact Or.inl hme

/-- A look-up in the memo of a separator keeps the shape. -/
theorem Shaped.findIndices {s : Potentials o α} (h : Shaped t s) {e : Edge}
    (he : e ∈ t.graph.edgeList) {v : CString} {mi : MulInd o × MulMemo o (MulInd o)}
    (hfind : s.findIndices v e = some mi) :
    Shaped t (s.setMulMemo e mi.2) ∧ mi.1.vbls = (t.sepSet e.srcSink).toVariableSet := by
  unfold Potentials.findIndices at hfind
  rw [MulMemo.getMulInd, h.sep e he] at hfind
  obtain ⟨hconsistent, ⟨key, hkey⟩, -⟩ := (h.mulMemo e he).of_getMemoized hfind
  obtain ⟨targetIndices, -, heq⟩ := Option.map_eq_some_iff.mp hkey
  refine ⟨h.setMulMemo he hconsistent, ?_⟩
  rw [← heq]

/-- A message keeps the shape and the memos of the cliques. -/
theorem Shaped.messagePassWith {A : Arith α} {s next : Potentials o α}
    {m : Message CString Edge} (h : Shaped t s) (hm : t.Along m)
    (hrun : s.messagePassWith A m.receiver m.sender m.sep = some next) :
    Shaped t next ∧ next.margMemo = s.margMemo := by
  unfold Potentials.messagePassWith at hrun
  simp only [Option.bind_eq_bind, Option.bind_eq_some_iff] at hrun
  obtain ⟨margInd, hmargInd, marg, hmarg, ratio, -, mulInd, hmulInd, pot, hpot, hnext⟩ := hrun
  obtain ⟨h₁, hvbls⟩ := h.findIndices hm.mem hmargInd
  obtain ⟨h₂, -⟩ := h₁.findIndices hm.mem hmulInd
  obtain ⟨values, -, rfl⟩ := Option.map_eq_some_iff.mp hmarg
  obtain ⟨qvalues, -, rfl⟩ := Option.map_eq_some_iff.mp hpot
  obtain rfl := Option.some.inj hnext
  exact ⟨h₂.store rfl hvbls, rfl⟩

/-! ## Runs -/

/-- What every state of a run satisfies: potentials and memos of the right sets, and in the memos
of the cliques keys of tables only. -/
structure Memoised (bn : BNet o α) (t : ElimTree o) (s : Potentials o α) : Prop where
  shaped : Shaped t s
  keys : ∀ l ∈ t.graph.labels, ∀ me ∈ s.margMemo l, ∃ p ∈ bn.pots, me.1 = p.vbls.bv

theorem Reached.memoised {s : Potentials o α} (h : Reached bn t s) : Memoised bn t s := by
  induction h with
  | init A state hrun =>
      rw [BNet.initializePotentialsWith_eq] at hrun
      refine PartialLoops.foldlM_invariant (Memoised bn t) hrun ?_ fun s p next hp hs hstep => ?_
      · refine ⟨shaped_createAll A t state, fun l hl me hme => ?_⟩
        rw [((createAll_eq A t state).1 l hl).2] at hme
        exact absurd hme List.not_mem_nil
      · obtain ⟨hshaped, hkeys⟩ := hs.shaped.multiplyIn hstep
        refine ⟨hshaped, fun l hl me hme => ?_⟩
        rcases hkeys l hl me hme with hold | hnew
        · exact hs.keys l hl me hold
        · exact ⟨p, hp, hnew⟩
  | pass A _ hm hstep ih =>
      obtain ⟨hshaped, hmemo⟩ := ih.shaped.messagePassWith hm hstep
      exact ⟨hshaped, fun l hl me hme => ih.keys l hl me (hmemo ▸ hme)⟩

/-- **Memoised indices are transparent**: in every state of a run the memo of a separator returns
for a clique at one of its ends what `VariableSet_ComputeMulInd` computes from the two sets, and
the memo of a clique returns for a table what `VariableSet_ComputeMargInd` computes, `NULL`
included. -/
theorem Reached.memos_transparent {s : Potentials o α} (h : Reached bn t s) :
    (∀ e ∈ t.graph.edgeList, ∀ v, AtEnd e v →
      ((s.mulMemo e.srcSink).getMulInd (s.sep e.srcSink).vbls (s.clique v).vbls).map Prod.fst =
        (s.sep e.srcSink).vbls.computeMulInd (s.clique v).vbls) ∧
    ∀ l ∈ t.graph.labels, ∀ p ∈ bn.pots,
      Option.Rel (Option.Rel MulInd.Same)
        (((s.margMemo l).getMargInd (s.clique l).vbls p.vbls).map Prod.fst)
        ((s.clique l).vbls.computeMargInd p.vbls) ∧
      ((∀ q ∈ bn.pots, q.vbls.bv.Unpadded) →
        ((s.margMemo l).getMargInd (s.clique l).vbls p.vbls).map Prod.fst =
          (s.clique l).vbls.computeMargInd p.vbls) := by
  obtain ⟨hshaped, hkeys⟩ := h.memoised
  refine ⟨fun e he v _ => ?_, fun l hl p hp => ?_⟩
  · rw [MulMemo.getMulInd, hshaped.sep e he]
    rcases (hshaped.mulMemo e he).fst_getMemoized (s.clique v).vbls with hret | ⟨me, -, hbits, hret⟩
    · exact hret
    · exact hret.trans (VariableSet.computeMulInd_congr (MulMemo.vars_eq_of_equals hbits))
  · rw [MulMemo.getMargInd, hshaped.clique l hl]
    rcases (hshaped.margMemo l hl).fst_getMemoized p.vbls with hret | ⟨me, hme, hbits, hret⟩
    · rw [hret]
      refine ⟨?_, fun _ => rfl⟩
      exact VariableSet.computeMargInd_congr rfl
    · rw [hret]
      refine ⟨VariableSet.computeMargInd_congr (MulMemo.vars_eq_of_equals hbits),
        fun hunpadded => ?_⟩
      obtain ⟨q, hq, hkey⟩ := hkeys l hl me hme
      have heq : me.1 = p.vbls.bv := by
        rw [hkey] at hbits ⊢
        exact (hunpadded q hq).eq (hunpadded p hp) hbits
      rw [heq]

/-- A sequence of messages is part of a run. -/
theorem Reached.passMessages {A : Arith α} {s next : Potentials o α}
    {ms : List (Message CString Edge)} (h : Reached bn t s) (hms : ∀ m ∈ ms, t.Along m)
    (hrun : s.passMessages A ms = some next) : Reached bn t next :=
  PartialLoops.foldlM_invariant (Reached bn t) hrun h fun _ m _ hm hs hstep =>
    hs.pass A (hms m hm) hstep

open BNet in
theorem Reached.memos_transparent_chain :
    ∃ bn t s, createList2 chainTables [chainObservation] = some bn ∧
      bn.buildElimTree QSort.insertion chainVertices = some t ∧ Reached bn t s ∧
      ∀ e ∈ t.graph.edgeList, ∀ v, AtEnd e v →
        ((s.mulMemo e.srcSink).getMulInd (s.sep e.srcSink).vbls (s.clique v).vbls).map Prod.fst =
          (s.sep e.srcSink).vbls.computeMulInd (s.clique v).vbls := by
  obtain ⟨bn, hcreate, -, -, hbuild, hpots⟩ := chain_pots chainVertices (List.Perm.refl _)
  obtain ⟨s₀, hinit, hrep⟩ := represents_initializePotentials (by decide)
    (fun p hp => (hpots p hp).1) (chainTree chainVertices) (unset chainOrdering ℚ)
  have halong : ∀ m ∈ bothWays (chainTree chainVertices).graph, (chainTree chainVertices).Along m :=
    fun m hm => along_of_mem_bothWays hm
  obtain ⟨s, hrun, -⟩ := hrep.passMessages properSeparators_chainTree halong
  have hreached : Reached bn (chainTree chainVertices) s :=
    (Reached.init (plain ℚ) _ hinit).passMessages halong hrun
  exact ⟨bn, _, s, hcreate, hbuild, hreached, hreached.memos_transparent.1⟩

end Potentials

end JunctionBox
