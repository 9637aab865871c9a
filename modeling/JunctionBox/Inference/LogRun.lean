import JunctionBox.Inference.Messages
import JunctionBox.Pot.Log

/-!
# The log pipeline against the plain one

`BNet_InitializePotentialsLog` and `MessagePassLog` are the plain functions over
another arithmetic.  `Follows` relates a plain state to the state of the log run
whose tables hold the logarithms of its entries and whose memos are the same;
initialising and every message over a separator without zeros keep it
(`Follows.multiplyIn`, `Follows.messagePass`).

A separator gets zeros from evidence.  A message over a separator that has one
divides zero by zero, which the plain version takes for zero and the log version
for NaN.
-/

namespace JunctionBox

open Propagation

variable {o : VariableOrdering} {α β : Type}

/-! ## The same network over other numbers -/

/-- `f` applied to the numbers of a table. -/
def CPT.map (f : α → β) (table : CPT o α) : CPT o β :=
  ⟨table.parents, table.tableFor, table.pot.map f⟩

namespace Observation

/-- `f` applied to the numbers of an observation. -/
def map (f : α → β) (ob : Observation o α) : Observation o β := ⟨ob.v, ob.pot.map f, ob.value⟩

/-- `Observation_CreateLog`. -/
def createLog {K L : Type} [Field K] [LinearOrder K] [AddCommGroup L] (iso : ExpLog K L)
    (vset : VariableSet o) (value : ℤ) : Option (Observation o (Extended L)) :=
  createWith (iso.toLog 1) (iso.toLog 0) vset value

theorem createWith_map (f : α → β) (hit miss : α) (vset : VariableSet o) (value : ℤ) :
    createWith (f hit) (f miss) vset value = (createWith hit miss vset value).map (map f) := by
  unfold createWith
  cases vset.getFstVbl with
  | none => rfl
  | some v =>
      simp only [Option.bind_eq_bind, Option.bind_some]
      split
      · rfl
      · simp only [Option.pure_def, Option.map_some, map, Pot.map_createTabular, List.map_map]
        congr 4
        funext i
        exact (apply_ite f _ _ _).symm

end Observation

namespace BNet

/-- `f` applied to the numbers of a network. -/
def map (f : α → β) (this : BNet o α) : BNet o β :=
  ⟨this.tables.map (CPT.map f), this.obs.map (Observation.map f), this.initialGraph⟩

theorem pots_map (f : α → β) (this : BNet o α) : (this.map f).pots = this.pots.map (Pot.map f) := by
  unfold pots map
  rw [List.map_append, List.map_map, List.map_map, List.map_map, List.map_map]
  rfl

/-- The graph does not depend on the numbers. -/
theorem createList2_map (f : α → β) (tables : List (CPT o α)) (obs : List (Observation o α)) :
    createList2 (tables.map (CPT.map f)) (obs.map (Observation.map f)) =
      (createList2 tables obs).map (map f) := by
  have hgraph : createGraph (tables.map (CPT.map f)) = createGraph tables := by
    unfold createGraph
    rw [List.foldlM_map]
    rfl
  unfold createList2
  rw [hgraph, Option.map_map]
  rfl

/-- `BNet_InitializePotentialsLog`. -/
def initializePotentialsLog {K L : Type} [Field K] [LinearOrder K] [AddCommGroup L]
    (iso : ExpLog K L) (this : BNet o (Extended L)) (t : ElimTree o)
    (state : Potentials o (Extended L)) : Option (Potentials o (Extended L)) :=
  this.initializePotentialsWith (logarithmic iso) t state

end BNet

namespace Potentials

/-- `MessagePassLog`. -/
def messagePassLog {K L : Type} [Field K] [LinearOrder K] [AddCommGroup L] (iso : ExpLog K L)
    (this : Potentials o (Extended L)) (receiver caller : CString) (sep : Edge) :
    Option (Potentials o (Extended L)) :=
  this.messagePassWith (logarithmic iso) receiver caller sep

/-! ## Corresponding states -/

/-- `other` holds `f` of the entries of `this`, all of them valid, and has the same memos. -/
structure Follows (f : α → β) (valid : α → Prop) (t : ElimTree o) (this : Potentials o α)
    (other : Potentials o β) : Prop where
  clique : ∀ l ∈ t.graph.labels,
    other.clique l = (this.clique l).map f ∧ (this.clique l).AllEntries valid
  sep : ∀ e ∈ t.graph.edgeList, other.sep e.srcSink = (this.sep e.srcSink).map f ∧
    (this.sep e.srcSink).AllEntries valid
  margMemo : ∀ l ∈ t.graph.labels, other.margMemo l = this.margMemo l
  mulMemo : ∀ e ∈ t.graph.edgeList, other.mulMemo e.srcSink = this.mulMemo e.srcSink

section Hom

variable {A : Arith α} {B : Arith β} {f : α → β} {valid divisor : α → Prop} {t : ElimTree o}
variable {this next : Potentials o α} {other : Potentials o β}

theorem follows_createAll (h : A.Hom B f valid divisor) (this : Potentials o α)
    (other : Potentials o β) : Follows f valid t (this.createAll A t) (other.createAll B t) := by
  obtain ⟨hcliques, hseps⟩ := createAll_eq A t this
  obtain ⟨hcliques', hseps'⟩ := createAll_eq B t other
  refine ⟨fun l hl => ?_, fun e he => ?_, fun l hl => ?_, fun e he => ?_⟩
  · rw [(hcliques l hl).1, (hcliques' l hl).1]
    exact ⟨(Pot.Arithmetic.map_createTabularUnity h _).symm,
      Pot.Arithmetic.allEntries_createTabularUnity h _⟩
  · rw [(hseps e he).1, (hseps' e he).1]
    exact ⟨(Pot.Arithmetic.map_createTabularUnity h _).symm,
      Pot.Arithmetic.allEntries_createTabularUnity h _⟩
  · rw [(hcliques l hl).2, (hcliques' l hl).2]
  · rw [(hseps e he).2, (hseps' e he).2]

/-- The search sees the variables only. -/
theorem Follows.findClique (hf : Follows f valid t this other) (curVbls : VariableSet o) :
    other.findClique t curVbls = this.findClique t curVbls := by
  unfold Potentials.findClique
  apply List.find?_congr
  intro l hl
  rw [(hf.clique l hl).1, Pot.vbls_map]

/-- The same table entered on both sides. -/
theorem Follows.update_clique (hf : Follows f valid t this other) (l : CString) {pot : Pot o α}
    (hvalid : pot.AllEntries valid) :
    Follows f valid t { this with clique := Function.update this.clique l pot }
      { other with clique := Function.update other.clique l (pot.map f) } := by
  refine ⟨fun k hk => ?_, hf.sep, hf.margMemo, hf.mulMemo⟩
  simp only
  by_cases heq : k = l
  · rw [heq, Function.update_self, Function.update_self]
    exact ⟨rfl, hvalid⟩
  · rw [Function.update_of_ne heq, Function.update_of_ne heq]
    exact hf.clique k hk

theorem Follows.update_sep (hf : Follows f valid t this other) (key : CString) {pot : Pot o α}
    (hvalid : pot.AllEntries valid) :
    Follows f valid t { this with sep := Function.update this.sep key pot }
      { other with sep := Function.update other.sep key (pot.map f) } := by
  refine ⟨hf.clique, fun e he => ?_, hf.margMemo, hf.mulMemo⟩
  simp only
  by_cases heq : e.srcSink = key
  · rw [heq, Function.update_self, Function.update_self]
    exact ⟨rfl, hvalid⟩
  · rw [Function.update_of_ne heq, Function.update_of_ne heq]
    exact hf.sep e he

theorem Follows.update_margMemo (hf : Follows f valid t this other) (l : CString)
    (memo : MulMemo o (Option (MulInd o))) :
    Follows f valid t { this with margMemo := Function.update this.margMemo l memo }
      { other with margMemo := Function.update other.margMemo l memo } := by
  refine ⟨hf.clique, hf.sep, fun k hk => ?_, hf.mulMemo⟩
  simp only
  by_cases heq : k = l
  · rw [heq, Function.update_self, Function.update_self]
  · rw [Function.update_of_ne heq, Function.update_of_ne heq]
    exact hf.margMemo k hk

theorem Follows.setMulMemo (hf : Follows f valid t this other) (sep : Edge)
    (memo : MulMemo o (MulInd o)) :
    Follows f valid t (this.setMulMemo sep memo) (other.setMulMemo sep memo) := by
  refine ⟨hf.clique, hf.sep, hf.margMemo, fun e he => ?_⟩
  unfold Potentials.setMulMemo
  simp only
  by_cases heq : e.srcSink = sep.srcSink
  · rw [heq, Function.update_self, Function.update_self]
  · rw [Function.update_of_ne heq, Function.update_of_ne heq]
    exact hf.mulMemo e he

/-- **One round of the multiplying loops.** -/
theorem Follows.multiplyIn (h : A.Hom B f valid divisor) (hf : Follows f valid t this other)
    {p : Pot o α} (hp : p.AllEntries valid) (hrun : Potentials.multiplyIn A t this p = some next) :
    ∃ next', Potentials.multiplyIn B t other (p.map f) = some next' ∧
      Follows f valid t next next' := by
  unfold Potentials.multiplyIn at hrun ⊢
  rw [Pot.vbls_map, hf.findClique]
  cases hfind : this.findClique t p.vbls with
  | none =>
      rw [hfind] at hrun
      obtain rfl := Option.some.inj hrun
      exact ⟨other, rfl, hf⟩
  | some l =>
      have hl : l ∈ t.graph.labels := List.mem_of_find?_eq_some hfind
      obtain ⟨hclique, hvalid⟩ := hf.clique l hl
      rw [hfind] at hrun
      obtain ⟨mi, hmi, hrun⟩ := Option.bind_eq_some_iff.mp hrun
      obtain ⟨pot, hpot, hrun⟩ := Option.bind_eq_some_iff.mp hrun
      obtain rfl := Option.some.inj hrun
      obtain ⟨hpot', hpotvalid⟩ := Pot.Arithmetic.map_productTabular h hp hvalid hpot
      simp only [Option.bind_eq_bind]
      rw [hf.margMemo l hl, hclique, Pot.vbls_map, hmi]
      simp only [Option.bind_some]
      rw [hpot']
      exact ⟨_, rfl, (hf.update_clique l hpotvalid).update_margMemo l mi.2⟩

theorem Follows.findIndices (hf : Follows f valid t this other) {v : CString}
    (hv : v ∈ t.graph.labels) {sep : Edge} (hsep : sep ∈ t.graph.edgeList) :
    other.findIndices v sep = this.findIndices v sep := by
  unfold Potentials.findIndices
  rw [hf.mulMemo sep hsep, (hf.sep sep hsep).1, (hf.clique v hv).1, Pot.vbls_map, Pot.vbls_map]

/-- **One message**, over a separator of divisors. -/
theorem Follows.messagePass (h : A.Hom B f valid divisor) (hf : Follows f valid t this other)
    {m : Message CString Edge} (hm : t.Along m)
    (hdivisor : (this.sep m.sep.srcSink).AllEntries divisor)
    (hrun : this.messagePassWith A m.receiver m.sender m.sep = some next) :
    ∃ next', other.messagePassWith B m.receiver m.sender m.sep = some next' ∧
      Follows f valid t next next' := by
  obtain ⟨margInd, hmargInd, hrun⟩ := Option.bind_eq_some_iff.mp hrun
  obtain ⟨marg, hmarg, hrun⟩ := Option.bind_eq_some_iff.mp hrun
  obtain ⟨updateRatio, hratio, hrun⟩ := Option.bind_eq_some_iff.mp hrun
  obtain ⟨mulInd, hmulInd, hrun⟩ := Option.bind_eq_some_iff.mp hrun
  obtain ⟨pot, hpot, hrun⟩ := Option.bind_eq_some_iff.mp hrun
  obtain rfl := Option.some.inj hrun
  have hf₁ := hf.setMulMemo m.sep margInd.2
  have hf₂ := hf₁.setMulMemo m.sep mulInd.2
  have hsender := hf₁.clique m.sender hm.sender_mem
  have hreceiver := hf₂.clique m.receiver hm.receiver_mem
  have hsep := hf₁.sep m.sep hm.mem
  obtain ⟨hmarg', hmargvalid⟩ := Pot.Arithmetic.map_sumMarginTabular h hsender.2 hmarg
  obtain ⟨hratio', hratiovalid⟩ := Pot.Arithmetic.map_updateRatioTabular h hmargvalid hsep.2
    hdivisor hratio
  obtain ⟨hpot', hpotvalid⟩ := Pot.Arithmetic.map_productTabular h hratiovalid hreceiver.2 hpot
  have hmargInd' : other.findMargIndices m.sender m.sep = some margInd :=
    (hf.findIndices hm.sender_mem hm.mem).trans hmargInd
  have hmulInd' : (other.setMulMemo m.sep margInd.2).findMulIndices m.receiver m.sep =
      some mulInd := (hf₁.findIndices hm.receiver_mem hm.mem).trans hmulInd
  refine ⟨((other.setMulMemo m.sep margInd.2).setMulMemo m.sep mulInd.2).store m.receiver
    (pot.map f) m.sep (marg.map f), ?_,
    (hf₂.update_clique m.receiver hpotvalid).update_sep m.sep.srcSink hmargvalid⟩
  unfold messagePassWith
  simp only [Option.bind_eq_bind]
  rw [hmargInd']
  simp only [Option.bind_some]
  rw [hsender.1, hmarg']
  simp only [Option.bind_some]
  rw [hsep.1, hratio']
  simp only [Option.bind_some]
  rw [hmulInd']
  simp only [Option.bind_some]
  rw [hreceiver.1, hpot']
  rfl

end Hom

section Log

variable {K L : Type} [Field K] [LinearOrder K] [IsStrictOrderedRing K] [AddCommGroup L]
variable {t : ElimTree o}

/-- Every entry of the log state is defined, and is the logarithm of the plain entry. -/
structure IsLog (iso : ExpLog K L) (t : ElimTree o) (this : Potentials o K)
    (other : Potentials o (Extended L)) : Prop where
  clique : ∀ l ∈ t.graph.labels, (other.clique l).vbls = (this.clique l).vbls ∧
    (other.clique l).tabData = (this.clique l).tabData.map iso.toLog ∧
    .nan ∉ (other.clique l).tabData
  sep : ∀ e ∈ t.graph.edgeList, (other.sep e.srcSink).vbls = (this.sep e.srcSink).vbls ∧
    (other.sep e.srcSink).tabData = (this.sep e.srcSink).tabData.map iso.toLog ∧
    .nan ∉ (other.sep e.srcSink).tabData

omit [IsStrictOrderedRing K] in
theorem Follows.isLog {iso : ExpLog K L} {this : Potentials o K}
    {other : Potentials o (Extended L)} (hf : Follows iso.toLog (fun q => 0 ≤ q) t this other) :
    IsLog iso t this other := by
  have hdefined : ∀ {p : Pot o K}, p.AllEntries (fun q => 0 ≤ q) →
      Extended.nan ∉ (p.map iso.toLog).tabData := by
    intro p hp hnan
    obtain ⟨q, hq, heq⟩ := List.mem_map.mp hnan
    exact iso.toLog_ne_nan (hp q hq) heq
  refine ⟨fun l hl => ?_, fun e he => ?_⟩
  · obtain ⟨hclique, hvalid⟩ := hf.clique l hl
    rw [hclique]
    exact ⟨rfl, rfl, hdefined hvalid⟩
  · obtain ⟨hsep, hvalid⟩ := hf.sep e he
    rw [hsep]
    exact ⟨rfl, rfl, hdefined hvalid⟩

/-- No message of the run finds a zero in its separator. -/
def ZeroFree : List (Message CString Edge) → Potentials o K → Prop
  | [], _ => True
  | m :: ms, this => (∀ a ∈ (this.sep m.sep.srcSink).tabData, a ≠ 0) ∧
      ∀ next ∈ this.messagePass m.receiver m.sender m.sep, ZeroFree ms next

instance decidableZeroFree : ∀ (ms : List (Message CString Edge)) (this : Potentials o K),
    Decidable (ZeroFree ms this)
  | [], _ => isTrue trivial
  | m :: ms, this =>
      haveI _ : ∀ next : Potentials o K, Decidable (ZeroFree ms next) := decidableZeroFree ms
      inferInstanceAs (Decidable ((∀ a ∈ (this.sep m.sep.srcSink).tabData, a ≠ 0) ∧
        ∀ next ∈ this.messagePass m.receiver m.sender m.sep, ZeroFree ms next))

/-- Runs without zeros in the separators. -/
theorem Follows.passMessages {iso : ExpLog K L} {this s : Potentials o K}
    {other : Potentials o (Extended L)} (hf : Follows iso.toLog (fun q => 0 ≤ q) t this other)
    {ms : List (Message CString Edge)} (hms : ∀ m ∈ ms, t.Along m) (hzero : ZeroFree ms this)
    (hrun : this.passMessages (plain K) ms = some s) :
    ∃ s', other.passMessages (logarithmic iso) ms = some s' ∧
      Follows iso.toLog (fun q => 0 ≤ q) t s s' := by
  induction ms generalizing this other with
  | nil =>
      obtain rfl := Option.some.inj hrun
      exact ⟨other, rfl, hf⟩
  | cons m ms ih =>
      unfold Potentials.passMessages passEach at hrun ih ⊢
      rw [List.foldlM_cons, Option.bind_eq_bind, Option.bind_eq_some_iff] at hrun
      obtain ⟨mid, hmid, hrest⟩ := hrun
      obtain ⟨mid', hmid', hf'⟩ := hf.messagePass (homLog iso) (hms m (List.mem_cons_self ..))
        hzero.1 hmid
      obtain ⟨s', hrun', hs'⟩ := ih hf' (fun m' hm' => hms m' (List.mem_cons_of_mem _ hm'))
        (hzero.2 mid hmid) hrest
      refine ⟨s', ?_, hs'⟩
      rw [List.foldlM_cons, hmid']
      exact hrun'

/-- Initialising commutes with the logarithm. -/
theorem follows_initializePotentials (iso : ExpLog K L) {bn : BNet o K}
    (hnonneg : ∀ p ∈ bn.pots, ∀ a ∈ p.tabData, 0 ≤ a) {state s : Potentials o K}
    (stateLog : Potentials o (Extended L)) (hrun : bn.initializePotentials t state = some s) :
    ∃ l, (bn.map iso.toLog).initializePotentialsLog iso t stateLog = some l ∧
      Follows iso.toLog (fun q => 0 ≤ q) t s l := by
  rw [BNet.initializePotentials, BNet.initializePotentialsWith_eq] at hrun
  obtain ⟨l, hl, hf⟩ := PartialLoops.foldlM_transport (φ := Pot.map iso.toLog)
    (g := Potentials.multiplyIn (logarithmic iso) t) (Follows iso.toLog (fun q => 0 ≤ q) t) hrun
    (follows_createAll (homLog iso) state stateLog) fun s u p s' hp hrel hstep =>
      hrel.multiplyIn (homLog iso) (hnonneg p hp) hstep
  refine ⟨l, ?_, hf⟩
  rw [BNet.initializePotentialsLog, BNet.initializePotentialsWith_eq, BNet.pots_map]
  exact hl

/-- The log pipeline on the logarithms of the tables and observations: initialising gives the
logarithms of the plain state, and so does every sequence of messages in which no message
finds a zero in its separator. -/
theorem passMessages_log (iso : ExpLog K L) (hpos : o.Discrete) {bn : BNet o K}
    (hpots : ∀ p ∈ bn.pots, Enterable p) (hnonneg : ∀ p ∈ bn.pots, ∀ a ∈ p.tabData, 0 ≤ a)
    (hproper : t.ProperSeparators) (state : Potentials o K)
    (stateLog : Potentials o (Extended L)) {ms : List (Message CString Edge)}
    (hms : ∀ m ∈ ms, t.Along m) :
    ∃ s₀ l₀, bn.initializePotentials t state = some s₀ ∧
      (bn.map iso.toLog).initializePotentialsLog iso t stateLog = some l₀ ∧ IsLog iso t s₀ l₀ ∧
      (ZeroFree ms s₀ → ∃ s l, s₀.passMessages (plain K) ms = some s ∧
        l₀.passMessages (logarithmic iso) ms = some l ∧ IsLog iso t s l) := by
  obtain ⟨s₀, hs₀, hrep⟩ := represents_initializePotentials hpos hpots t state
  obtain ⟨l₀, hl₀, hf⟩ := follows_initializePotentials iso hnonneg stateLog hs₀
  refine ⟨s₀, l₀, hs₀, hl₀, hf.isLog, fun hzero => ?_⟩
  obtain ⟨s, hs, -⟩ := hrep.passMessages hproper hms
  obtain ⟨l, hl, hf'⟩ := hf.passMessages hms hzero hs
  exact ⟨s, l, hs, hl, hf'.isLog⟩

end Log

/-! ## Two runs on the chain -/

open BNet

/-- The edge between the cliques that contain `c`. -/
def chainEdge : Edge := Edge.create ['b', ' ', 'c', ' '] ['c', ' ', 'd', ' ']

/-- The messages to the clique with the evidence. -/
def chainUp : List (Message CString Edge) :=
  [⟨['b', ' ', 'c', ' '], ['a', ' ', 'b', ' '],
      Edge.create ['a', ' ', 'b', ' '] ['b', ' ', 'c', ' ']⟩,
    ⟨chainEdge.sink, chainEdge.src, chainEdge⟩]

/-- A message from the clique with the evidence, and the answer. -/
def chainBack : List (Message CString Edge) :=
  [⟨chainEdge.src, chainEdge.sink, chainEdge⟩, ⟨chainEdge.sink, chainEdge.src, chainEdge⟩]

theorem along_chain : ∀ m ∈ chainUp ++ chainBack, (chainTree chainVertices).Along m := by
  have hall : ∀ m ∈ chainUp ++ chainBack, m.sep ∈ (chainTree chainVertices).graph.edgeList ∧
      ((m.sep.src = m.sender ∧ m.sep.sink = m.receiver) ∨
        (m.sep.src = m.receiver ∧ m.sep.sink = m.sender)) := by
    decide +kernel
  intro m hm
  obtain ⟨hmem, hends⟩ := hall m hm
  exact ⟨hmem, Sym2.eq_iff.mpr hends⟩

theorem passMessages_log_chain :
    ∃ bn s₀ l₀ s l, createList2 chainTables [chainObservation] = some bn ∧
      bn.initializePotentials (chainTree chainVertices) (unset chainOrdering ℚ) = some s₀ ∧
      (bn.map ratExpLog.toLog).initializePotentialsLog ratExpLog (chainTree chainVertices)
        (unset chainOrdering _) = some l₀ ∧
      s₀.passMessages (plain ℚ) chainUp = some s ∧
      l₀.passMessages (logarithmic ratExpLog) chainUp = some l ∧
      IsLog ratExpLog (chainTree chainVertices) s l := by
  obtain ⟨bn, hrun, -, -, -, hpots⟩ := chain_pots chainVertices (List.Perm.refl _)
  obtain ⟨s₀, l₀, hs₀, hl₀, -, hlog⟩ := passMessages_log ratExpLog (by decide)
    (fun p hp => (hpots p hp).1) (fun p hp => (hpots p hp).2.2) properSeparators_chainTree
    (unset chainOrdering ℚ) (unset chainOrdering _)
    (fun m hm => along_chain m (List.mem_append_left _ hm))
  have hzero : ((createList2 chainTables [chainObservation]).bind fun bn =>
      (bn.initializePotentials (chainTree chainVertices) (unset chainOrdering ℚ)).map fun s₀ =>
        decide (ZeroFree chainUp s₀)) = some true := by
    decide +kernel
  rw [hrun, Option.bind_some, hs₀, Option.map_some, Option.some.injEq, decide_eq_true_eq] at hzero
  obtain ⟨s, l, hs, hl, hisLog⟩ := hlog hzero
  exact ⟨bn, s₀, l₀, s, l, hrun, hs₀, hl₀, hs, hl, hisLog⟩

/-- The answer divides zero by zero. -/
theorem passMessages_log_undefined :
    ∃ bn s₀ l₀ s l, createList2 chainTables [chainObservation] = some bn ∧
      createList2 (chainTables.map (CPT.map ratExpLog.toLog))
        ([chainObservation].map (Observation.map ratExpLog.toLog)) =
          some (bn.map ratExpLog.toLog) ∧
      (∀ p ∈ bn.pots, ∀ a ∈ p.tabData, 0 ≤ a) ∧
      (chainTree chainVertices).ProperSeparators ∧
      (∀ m ∈ chainBack, (chainTree chainVertices).Along m) ∧
      bn.initializePotentials (chainTree chainVertices) (unset chainOrdering ℚ) = some s₀ ∧
      (bn.map ratExpLog.toLog).initializePotentialsLog ratExpLog (chainTree chainVertices)
        (unset chainOrdering _) = some l₀ ∧
      s₀.passMessages (plain ℚ) chainBack = some s ∧
      l₀.passMessages (logarithmic ratExpLog) chainBack = some l ∧
      ¬IsLog ratExpLog (chainTree chainVertices) s l := by
  obtain ⟨bn, hrun, -, -, -, hpots⟩ := chain_pots chainVertices (List.Perm.refl _)
  have halong : ∀ m ∈ chainBack, (chainTree chainVertices).Along m := fun m hm =>
    along_chain m (List.mem_append_right _ hm)
  obtain ⟨s₀, hs₀, hrep⟩ := represents_initializePotentials (by decide)
    (fun p hp => (hpots p hp).1) (chainTree chainVertices) (unset chainOrdering ℚ)
  obtain ⟨s, hs, -⟩ := hrep.passMessages properSeparators_chainTree halong
  have hnan : ((createList2 chainTables [chainObservation]).bind fun bn =>
      ((bn.map ratExpLog.toLog).initializePotentialsLog ratExpLog (chainTree chainVertices)
        (unset chainOrdering _)).bind fun l₀ =>
          (l₀.passMessages (logarithmic ratExpLog) chainBack).map fun l =>
            decide (.nan ∈ (l.clique chainEdge.sink).tabData)) = some true := by
    decide +kernel
  rw [hrun, Option.bind_some] at hnan
  obtain ⟨l₀, hl₀, hnan⟩ := Option.bind_eq_some_iff.mp hnan
  obtain ⟨l, hl, hnan⟩ := Option.map_eq_some_iff.mp hnan
  refine ⟨bn, s₀, l₀, s, l, hrun, ?_, fun p hp => (hpots p hp).2.2, properSeparators_chainTree,
    halong, hs₀, hl₀, hs, hl, fun hisLog => ?_⟩
  · rw [createList2_map, hrun]
    rfl
  · have hmem : chainEdge.sink ∈ (chainTree chainVertices).graph.labels := by decide +kernel
    exact (hisLog.clique _ hmem).2.2 (of_decide_eq_true hnan)

end Potentials

end JunctionBox
