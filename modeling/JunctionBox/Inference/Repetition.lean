import JunctionBox.Foundations.Gathering
import JunctionBox.Inference.Calibration

/-!
# Messages into one clique, in any order

The neighbours of a clique may send to it in any order and as often as they
like: what the calls of `MessagePass` leave depends only on which neighbours have
sent (`passMessages_eq_of_senders`).  Nothing is assumed of the tables but their
sizes, so separators may be zero, and may differ from one, before the first call.
-/

namespace JunctionBox.Potentials

open Propagation

variable {o : VariableOrdering} {K : Type} [Field K] [DecidableEq K] {t : ElimTree o}

/-- Every clique and every separator of the tree has a table of the right size. -/
structure Filled (t : ElimTree o) (this : Potentials o K) : Prop where
  shaped : Shaped t this
  clique : ∀ l ∈ t.graph.labels, (this.clique l).Sized
  sep : ∀ e ∈ t.graph.edgeList, (this.sep e.srcSink).Sized

/-- The factors in the tables, and ones where the tree has none. -/
def factors (t : ElimTree o) (this : Potentials o K) : Beliefs CString Edge ℕ ℕ K where
  clique l := if l ∈ t.graph.labels then (this.clique l).val else fun _ => 1
  sep e := if e ∈ t.graph.edgeList then (this.sep e.srcSink).val else fun _ => 1

variable {this : Potentials o K}

omit [Field K] [DecidableEq K] in
/-- The states of a run are filled. -/
theorem Represents.filled {b : Beliefs CString Edge ℕ ℕ K} (h : Represents t this b) :
    Filled t this :=
  ⟨h.shaped, fun l hl => (h.clique l hl).sized, fun e he => (h.sep e he).sized⟩

omit [DecidableEq K] in
theorem Filled.represents (h : Filled t this) : Represents t this (factors t this) := by
  refine ⟨h.shaped, ⟨fun l => dependsOn_factor (h.shaped.clique l),
    fun e => dependsOn_factor (h.shaped.sep e)⟩, fun l hl => ?_, fun e he => ?_⟩
  · simp only [factors, if_pos hl]
    exact (h.clique l hl).represents_val
  · simp only [factors, if_pos he]
    exact (h.sep e he).represents_val

omit [Field K] [DecidableEq K] in
/-- Tables over the same variables for the same factors are the same. -/
theorem Represents.eq_of_represents {s s' : Potentials o K} {b : Beliefs CString Edge ℕ ℕ K}
    (h : Represents t s b) (h' : Represents t s' b) :
    (∀ l ∈ t.graph.labels, s.clique l = s'.clique l) ∧
      ∀ e ∈ t.graph.edgeList, s.sep e.srcSink = s'.sep e.srcSink :=
  ⟨fun l hl => (h.clique l hl).eq (h'.clique l hl)
      ((h.shaped.clique l hl).trans (h'.shaped.clique l hl).symm),
    fun e he => (h.sep e he).eq (h'.sep e he)
      ((h.shaped.sep e he).trans (h'.shaped.sep e he).symm)⟩

/-- A call changes no clique but its receiver. -/
theorem clique_of_messagePassWith {α : Type} {A : Arith α} {s next : Potentials o α}
    {receiver caller : CString} {sep : Edge}
    (hrun : s.messagePassWith A receiver caller sep = some next) {l : CString}
    (hl : l ≠ receiver) : next.clique l = s.clique l := by
  unfold messagePassWith at hrun
  simp only [Option.bind_eq_bind, Option.bind_eq_some_iff] at hrun
  obtain ⟨_, -, _, -, _, -, _, -, _, -, hnext⟩ := hrun
  obtain rfl := Option.some.inj hnext
  exact Function.update_of_ne hl ..

/-- Calls change no clique but their receivers. -/
theorem clique_of_passMessages {α : Type} {A : Arith α} {s next : Potentials o α}
    {ms : List (Message CString Edge)} (hrun : s.passMessages A ms = some next) {l : CString}
    (hl : ∀ m ∈ ms, l ≠ m.receiver) : next.clique l = s.clique l :=
  PartialLoops.foldlM_invariant (fun s' => s'.clique l = s.clique l) hrun rfl
    fun _ m _ hm hs hstep => (clique_of_messagePassWith hstep (hl m hm)).trans hs

/-- The calls `MessagePass(receiver, neighbour, separator)`. -/
def callsTo (receiver : CString) (senders : List (CString × Edge)) :
    List (Message CString Edge) := senders.map fun n => ⟨receiver, n.1, n.2⟩

/-- No two neighbours are the same, and none is the clique itself. -/
def DistinctNeighbors (g : Graph) (v : CString) : Prop :=
  (v :: (g.neighbors v).map Prod.fst).Nodup

/-- In a tree neighbours are distinct. -/
theorem distinctNeighbors_of_isTree (htree : t.IsTree) (v : CString) :
    DistinctNeighbors t.graph v := by
  refine List.nodup_cons.mpr ⟨fun hv => ?_, htree.nodup_neighbors v⟩
  obtain ⟨n, hn, heq⟩ := List.mem_map.mp hv
  exact (htree.adj_of_mem_neighbors hn).ne heq.symm

variable {receiver : CString} {senders senders' : List (CString × Edge)}

theorem along_of_mem_callsTo (hsenders : ∀ n ∈ senders, n ∈ t.graph.neighbors receiver) :
    ∀ m ∈ callsTo receiver senders, t.Along m := by
  intro m hm
  obtain ⟨n, hn, rfl⟩ := List.mem_map.mp hm
  obtain ⟨he, hends⟩ := Graph.mem_neighbors_ends (hsenders n hn)
  exact ⟨he, hends⟩

/-- Calls from distinct neighbours, as messages. -/
theorem inbound_callsTo (hdistinct : DistinctNeighbors t.graph receiver)
    (hsenders : ∀ n ∈ senders, n ∈ t.graph.neighbors receiver) :
    Inbound receiver (callsTo receiver senders) where
  receiver m hm := by
    obtain ⟨n, -, rfl⟩ := List.mem_map.mp hm
    rfl
  sender m hm := by
    obtain ⟨n, hn, rfl⟩ := List.mem_map.mp hm
    intro (heq : n.1 = receiver)
    have hmem : n.1 ∈ (t.graph.neighbors receiver).map Prod.fst :=
      List.mem_map_of_mem (hsenders n hn)
    rw [heq] at hmem
    exact (List.nodup_cons.mp hdistinct).1 hmem
  sep_inj m hm m' hm' hsep := by
    obtain ⟨⟨l, e⟩, hn, rfl⟩ := List.mem_map.mp hm
    obtain ⟨⟨l', e'⟩, hn', rfl⟩ := List.mem_map.mp hm'
    obtain rfl : e = e' := hsep
    -- the edge has the receiver at one end, so it determines the other end
    have hends := (Graph.mem_neighbors_ends (hsenders _ hn)).2.symm.trans
      (Graph.mem_neighbors_ends (hsenders _ hn')).2
    rcases Sym2.eq_iff.mp hends with ⟨rfl, -⟩ | ⟨rfl, rfl⟩ <;> rfl

/-- With distinct neighbours a call is determined by its sender. -/
theorem mem_callsTo_iff (hdistinct : DistinctNeighbors t.graph receiver)
    (hsenders : ∀ n ∈ senders, n ∈ t.graph.neighbors receiver)
    (hsenders' : ∀ n ∈ senders', n ∈ t.graph.neighbors receiver)
    (hsame : ∀ l, l ∈ senders.map Prod.fst ↔ l ∈ senders'.map Prod.fst)
    (m : Message CString Edge) : m ∈ callsTo receiver senders ↔ m ∈ callsTo receiver senders' := by
  have hmem : ∀ {l₁ l₂ : List (CString × Edge)}, (∀ n ∈ l₁, n ∈ t.graph.neighbors receiver) →
      (∀ n ∈ l₂, n ∈ t.graph.neighbors receiver) →
      (∀ l, l ∈ l₁.map Prod.fst → l ∈ l₂.map Prod.fst) → ∀ n ∈ l₁, n ∈ l₂ := by
    intro l₁ l₂ h₁ h₂ hsub n hn
    obtain ⟨n', hn', hfst⟩ := List.mem_map.mp (hsub n.1 (List.mem_map_of_mem hn))
    have heq := List.inj_on_of_nodup_map (List.nodup_cons.mp hdistinct).2 (h₂ n' hn') (h₁ n hn)
      hfst
    exact heq ▸ hn'
  unfold callsTo
  rw [List.mem_map, List.mem_map]
  constructor
  · rintro ⟨n, hn, rfl⟩
    exact ⟨n, hmem hsenders hsenders' (fun l => (hsame l).mp) n hn, rfl⟩
  · rintro ⟨n, hn, rfl⟩
    exact ⟨n, hmem hsenders' hsenders (fun l => (hsame l).mpr) n hn, rfl⟩

/-- **Messages into one clique do not depend on order or repetition**: two runs of calls that
mention the same neighbours leave the same table on the clique and the same tables on all
separators, and neither changes any other clique. -/
theorem passMessages_eq_of_senders (hproper : t.ProperSeparators)
    (hreceiver : receiver ∈ t.graph.labels) (hdistinct : DistinctNeighbors t.graph receiver)
    (hfilled : Filled t this)
    (hsenders : ∀ n ∈ senders, n ∈ t.graph.neighbors receiver)
    (hsenders' : ∀ n ∈ senders', n ∈ t.graph.neighbors receiver)
    (hsame : ∀ l, l ∈ senders.map Prod.fst ↔ l ∈ senders'.map Prod.fst) :
    ∃ s s', this.passMessages (plain K) (callsTo receiver senders) = some s ∧
      this.passMessages (plain K) (callsTo receiver senders') = some s' ∧
      s.clique receiver = s'.clique receiver ∧
      (∀ e ∈ t.graph.edgeList, s.sep e.srcSink = s'.sep e.srcSink) ∧
      ∀ l ≠ receiver, s.clique l = this.clique l ∧ s'.clique l = this.clique l := by
  have hrep := hfilled.represents
  obtain ⟨s, hrun, hs⟩ := hrep.passMessages hproper (along_of_mem_callsTo hsenders)
  obtain ⟨s', hrun', hs'⟩ := hrep.passMessages hproper (along_of_mem_callsTo hsenders')
  have hbeliefs : passAll o.dom t.clique t.separatorOf (callsTo receiver senders)
      (factors t this) = passAll o.dom t.clique t.separatorOf (callsTo receiver senders')
      (factors t this) := (inbound_callsTo hdistinct hsenders).passAll_eq
    (mem_callsTo_iff hdistinct hsenders hsenders' hsame)
  rw [hbeliefs] at hs
  obtain ⟨hcliques, hseps⟩ := hs.eq_of_represents hs'
  refine ⟨s, s', hrun, hrun', hcliques receiver hreceiver, hseps, fun l hl => ⟨?_, ?_⟩⟩
  · apply clique_of_passMessages hrun
    intro m hm
    rwa [(inbound_callsTo hdistinct hsenders).receiver m hm]
  · apply clique_of_passMessages hrun'
    intro m hm
    rwa [(inbound_callsTo hdistinct hsenders').receiver m hm]

open BNet in
theorem passMessages_eq_of_senders_chain :
    let t := chainTree chainVertices
    let middle : CString := ['b', ' ', 'c', ' ']
    (t.graph.neighbors middle).length = 2 ∧
      ∃ s s' : Potentials chainOrdering ℚ,
        (ones t).passMessages (plain ℚ) (callsTo middle (t.graph.neighbors middle)) = some s ∧
        (ones t).passMessages (plain ℚ) (callsTo middle ((t.graph.neighbors middle).reverse ++
          t.graph.neighbors middle)) = some s' ∧
        s.clique middle = s'.clique middle := by
  intro t middle
  obtain ⟨htree, -⟩ := chainTree_isJunctionTree chainVertices (List.Perm.refl _) (by decide)
  have hfilled : Filled t (ones t : Potentials chainOrdering ℚ) := (represents_ones t).filled
  have hmem : ∀ n ∈ (t.graph.neighbors middle).reverse ++ t.graph.neighbors middle,
      n ∈ t.graph.neighbors middle := fun n hn => by simpa using hn
  have hsame : ∀ l, l ∈ (t.graph.neighbors middle).map Prod.fst ↔
      l ∈ ((t.graph.neighbors middle).reverse ++ t.graph.neighbors middle).map Prod.fst := by
    intro l
    rw [List.map_append, List.mem_append, List.map_reverse, List.mem_reverse, or_self]
  obtain ⟨s, s', hrun, hrun', hclique, -⟩ := passMessages_eq_of_senders
    properSeparators_chainTree (show middle ∈ t.graph.labels by decide +kernel)
    (distinctNeighbors_of_isTree htree middle) hfilled (fun n hn => hn) hmem hsame
  exact ⟨by decide +kernel, s, s', hrun, hrun', hclique⟩

end JunctionBox.Potentials
