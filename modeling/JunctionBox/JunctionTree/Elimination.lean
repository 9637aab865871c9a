import JunctionBox.Graph.Content
import JunctionBox.JunctionTree.ElimTree

/-!
# Moral graphs and elimination sets

`GatherElimSets` collects for every vertex of the ordering the vertex itself and
its neighbours of lower rank, from the highest rank down.  It is meant to connect
the members of each set before it goes on, but the list of members that it
passes to `Graph_ConnectAll` is always empty, so the graph stays as it is and
the sets are those of the moral graph without fill-in (`gatherElimSets_eq`).

`RemoveNonCliques` then drops sets that are contained in a later one, the later
set moving down into the freed slot.  Every set stays covered by a survivor and
every survivor is one of the sets (`removeNonCliques_eq`); sets contained in an
earlier one may stay.
-/

namespace JunctionBox

open PartialLoops

/-- The round of `MoralGraph` for one vertex: an edge between any two of its parents. -/
def marryParents (imm ret : Graph) (current : Vertex) : Option Graph :=
  (pairs (imm.parentLoop current)).foldlM (fun (g : Graph) p => g.addEdge p.1 p.2) ret

/-- `MoralGraph`. -/
def moralGraph (imm : Graph) : Option Graph := do
  let ret ← imm.copy
  imm.vertexLoop.foldlM (marryParents imm) (ret.setDirected false)

/-- An edge in one direction or the other, or a common child. -/
def MoralAdj (E : Set (CString × CString)) (a b : CString) : Prop :=
  (a, b) ∈ E ∨ (b, a) ∈ E ∨ ∃ c, (a, c) ∈ E ∧ (b, c) ∈ E

namespace Graph.Consists

variable {this : Graph} {V : Set CString} {E : Set (CString × CString)}

/-- What the loop of `MoralGraph` adds. -/
theorem marryAll (h : this.Consists V E) (hV : ∀ l ∈ V, ' ' ∉ l) :
    ∀ (rest : List Vertex) {ret : Graph} {F : Set (CString × CString)},
      (∀ v ∈ rest, (v.label, v) ∈ this.vertices.first) → ret.Consists V F →
      ∃ g, rest.foldlM (marryParents this) ret = some g ∧
        g.Consists V ({p | ∃ v ∈ rest, p ∈ pairs (this.parentLoop v)} ∪ F) := by
  intro rest
  induction rest with
  | nil => exact fun {ret F} _ hret => ⟨ret, rfl, hret.vertices, fun a b => by
      rw [hret.edges]; simp⟩
  | cons v rest ih =>
      intro ret F hrest hret
      have hv := hrest v (List.mem_cons_self ..)
      have hnew : ∀ p ∈ pairs (this.parentLoop v), p.1 ∈ V ∧ p.2 ∈ V := by
        intro p hp
        have hmem := mem_pairs hp
        exact ⟨(h.ends_mem ((h.mem_parentLoop hv).mp hmem.1)).1,
          (h.ends_mem ((h.mem_parentLoop hv).mp hmem.2)).1⟩
      obtain ⟨g, hg, hcons⟩ := hret.addEdges hV hnew
      obtain ⟨g', hrun, hcons'⟩ := ih (fun w hw => hrest w (List.mem_cons_of_mem _ hw)) hcons
      refine ⟨g', by rw [List.foldlM_cons, marryParents, hg]; exact hrun, hcons'.vertices,
        fun a b => ?_⟩
      rw [hcons'.edges]
      simp only [Set.mem_union, Set.mem_ofPred_eq, List.mem_cons, exists_eq_or_imp]
      generalize (∃ w ∈ rest, (a, b) ∈ pairs (this.parentLoop w)) = later
      tauto

/-- `MoralGraph` joins the vertices that are adjacent or have a common child. -/
theorem moralGraph (h : this.Consists V E) (hV : ∀ l ∈ V, ' ' ∉ l) :
    ∃ g F, JunctionBox.moralGraph this = some g ∧ g.Consists V F ∧
      ∀ a b, a ≠ b → ((a, b) ∈ F ∨ (b, a) ∈ F ↔ MoralAdj E a b) := by
  obtain ⟨ret, hcopy, hret⟩ := h.copy
  obtain ⟨g, hrun, hcons⟩ := h.marryAll hV this.vertexLoop
    (fun v hv => mem_vertexLoop.mp hv) (hret.setDirected false)
  refine ⟨g, _, ?_, hcons, fun a b hab => ?_⟩
  · unfold JunctionBox.moralGraph
    rw [hcopy]
    exact hrun
  have hpair : ∀ {p q}, (∃ v ∈ this.vertexLoop, (p, q) ∈ pairs (this.parentLoop v)) →
      ∃ c, (p, c) ∈ E ∧ (q, c) ∈ E := by
    intro p q hpq
    obtain ⟨v, hv, hmem⟩ := hpq
    have hparents := mem_pairs hmem
    have hv' := mem_vertexLoop.mp hv
    exact ⟨v.label, (h.mem_parentLoop hv').mp hparents.1, (h.mem_parentLoop hv').mp hparents.2⟩
  simp only [Set.mem_union, Set.mem_ofPred_eq, MoralAdj]
  constructor
  · rintro ((hmem | hmem) | (hmem | hmem))
    · exact Or.inr (Or.inr (hpair hmem))
    · exact Or.inl hmem
    · obtain ⟨c, hb, ha⟩ := hpair hmem
      exact Or.inr (Or.inr ⟨c, ha, hb⟩)
    · exact Or.inr (Or.inl hmem)
  · rintro (hmem | hmem | ⟨c, ha, hb⟩)
    · exact Or.inl (Or.inr hmem)
    · exact Or.inr (Or.inr hmem)
    · have hc := (h.vertices c).mpr (h.ends_mem ha).2
      rw [← map_label_vertexLoop, List.mem_map] at hc
      obtain ⟨v, hv, rfl⟩ := hc
      have hv' := mem_vertexLoop.mp hv
      obtain ⟨p, hp, heq⟩ := exists_mem_pairs ((h.mem_parentLoop hv').mpr ha)
        ((h.mem_parentLoop hv').mpr hb) hab
      rcases Sym2.eq_iff.mp heq with ⟨hfst, hscnd⟩ | ⟨hfst, hscnd⟩
      · exact Or.inl (Or.inl ⟨v, hv, by rw [← hfst, ← hscnd]; exact hp⟩)
      · exact Or.inr (Or.inl ⟨v, hv, by rw [← hfst, ← hscnd]; exact hp⟩)

end Graph.Consists

section Gather

variable {o : VariableOrdering}

/-- The round of `GatherElimSets` for the vertex of rank `i`; the slots fill from the last
to the first. -/
def gatherElimSet (o2 : VariableOrdering) (vo : VertexOrdering)
    (state : Graph × List (Option (ElimSet o2))) (i : ℕ) :
    Option (Graph × List (Option (ElimSet o2))) := do
  let v ← vo.vertices[i]?
  let current ← state.1.getVertex v
  let itr ← state.1.getNeighborItr current.label
  let loop ← itr.neighborLoop (fun eset nghbr _ =>
      some (if vo.getVertexRankByLabel nghbr < i then eset.add nghbr else eset))
    ((ElimSet.create o2).add current.label)
  let members ← loop.2.getVertexList state.1
  let moral ← state.1.connectAll members
  return (moral, some loop.2 :: state.2)

/-- `GatherElimSets`; it also changes `moral`. -/
def gatherElimSets (moral : Graph) (vo : VertexOrdering) (o2 : VariableOrdering) :
    Option (Graph × ElimSetCollection o2) := do
  let state ← (List.range vo.size).reverse.foldlM (gatherElimSet o2 vo) (moral, [])
  return (state.1, ⟨state.2⟩)

/-- The vertex of rank `i` and its neighbours of lower rank, as `GatherElimSets` sees them. -/
def IsElimSet (moral : Graph) (vo : VertexOrdering) (i : ℕ) (es : ElimSet o) : Prop :=
  ∃ v, vo.vertices[i]? = some v ∧ ∀ j, j ∈ es.vars ↔
    ∃ l, o.getVariableRankByLabel l = some j ∧
      (l = v ∨ (∃ e, (l, e) ∈ moral.neighbors v) ∧ vo.getVertexRankByLabel l < i)

theorem mem_vars_add {es : ElimSet o} {l : CString} {j : ℕ} :
    j ∈ (es.add l).vars ↔ o.getVariableRankByLabel l = some j ∨ j ∈ es.vars := by
  cases hrank : o.getVariableRankByLabel l with
  | none =>
      unfold ElimSet.add
      rw [hrank]
      simp
  | some i =>
      rw [ElimSet.vars_add es hrank, Finset.mem_insert, Option.some.injEq, eq_comm (a := i)]

theorem gatherElimSet_eq {moral : Graph} {vo : VertexOrdering} {i : ℕ} {v : CString}
    (hi : vo.vertices[i]? = some v) (hv : v ∈ moral.labels) (slots : List (Option (ElimSet o))) :
    ∃ es, gatherElimSet o vo (moral, slots) i = some (moral, some es :: slots) ∧
      IsElimSet moral vo i es := by
  obtain ⟨current, hcurrent⟩ := Option.isSome_iff_exists.mp ((moral.getVertex_isSome_iff v).mpr hv)
  have hlabel := Graph.label_of_getVertex hcurrent
  obtain ⟨itr, hitr, hlist⟩ := Graph.getNeighborItr_eq hv
  set body : ElimSet o → CString × Edge → ElimSet o := fun eset n =>
    if vo.getVertexRankByLabel n.1 < i then eset.add n.1 else eset with hbody
  have hloop := PartialLoops.foldlM_eq_some (l := moral.neighbors v) (g := body)
    (f := fun eset n => some (body eset n)) (s := (ElimSet.create o).add v) (fun _ => True) trivial
    fun _ _ _ _ => ⟨rfl, trivial⟩
  set es := (moral.neighbors v).foldl body ((ElimSet.create o).add v) with hes
  refine ⟨es, ?_, v, hi, fun j => ?_⟩
  · unfold gatherElimSet
    simp only [hi, hcurrent, hlabel, hitr, Option.bind_eq_bind, Option.bind_some]
    rw [NeighborItr.neighborLoop_eq, hlist, hloop.1]
    simp only [Option.map_some, Option.bind_some, ElimSet.getVertexList_eq_nil]
    rfl
  · -- what folding over any list of neighbours adds
    have hfold : ∀ (ns : List (CString × Edge)) (s : ElimSet o), j ∈ (ns.foldl body s).vars ↔
        j ∈ s.vars ∨ ∃ n ∈ ns, o.getVariableRankByLabel n.1 = some j ∧
          vo.getVertexRankByLabel n.1 < i := by
      intro ns
      induction ns with
      | nil => simp
      | cons n ns ih =>
          intro s
          rw [List.foldl_cons, ih, hbody]
          simp only [List.mem_cons, exists_eq_or_imp]
          by_cases hlt : vo.getVertexRankByLabel n.1 < i
          · rw [if_pos hlt, mem_vars_add]
            tauto
          · rw [if_neg hlt]
            tauto
    rw [hes, hfold, mem_vars_add, ElimSet.vars_create]
    constructor
    · rintro ((hrank | hmem) | ⟨n, hn, hrank, hlt⟩)
      · exact ⟨v, hrank, Or.inl rfl⟩
      · exact absurd hmem (Finset.notMem_empty j)
      · exact ⟨n.1, hrank, Or.inr ⟨⟨n.2, hn⟩, hlt⟩⟩
    · rintro ⟨l, hrank, rfl | ⟨⟨e, he⟩, hlt⟩⟩
      · exact Or.inl (Or.inl hrank)
      · exact Or.inr ⟨(l, e), he, hrank, hlt⟩

/-- **`GatherElimSets`** leaves the graph alone and collects its elimination sets. -/
theorem gatherElimSets_eq {moral : Graph} {vo : VertexOrdering}
    (hvo : ∀ v ∈ vo.vertices, v ∈ moral.labels) :
    ∃ sets : List (ElimSet o), gatherElimSets moral vo o = some (moral, ⟨sets.map some⟩) ∧
      sets.length = vo.size ∧ ∀ i es, sets[i]? = some es → IsElimSet moral vo i es := by
  -- the last `k` ranks
  have hrun : ∀ (k : ℕ), k ≤ vo.size → ∃ sets : List (ElimSet o),
      ((List.range' (vo.size - k) k).reverse.foldlM (gatherElimSet o vo) (moral, [])) =
        some (moral, sets.map some) ∧ sets.length = k ∧
      ∀ i es, sets[i]? = some es → IsElimSet moral vo (vo.size - k + i) es := by
    intro k
    induction k with
    | zero => exact fun _ => ⟨[], rfl, rfl, fun i es h => absurd h (by simp)⟩
    | succ k ih =>
        intro hk
        obtain ⟨sets, hsets, hlen, hspec⟩ := ih (by omega)
        have hlt : vo.size - (k + 1) < vo.vertices.length := by
          unfold VertexOrdering.size at hk ⊢
          omega
        have hi := List.getElem?_eq_getElem hlt
        obtain ⟨es, hes, his⟩ := gatherElimSet_eq hi (hvo _ (List.getElem_mem hlt))
          (sets.map some)
        have hnext : vo.size - (k + 1) + 1 = vo.size - k := by omega
        refine ⟨es :: sets, ?_, by rw [List.length_cons, hlen], fun i es' hes' => ?_⟩
        · rw [List.range'_succ, hnext, List.reverse_cons, List.foldlM_append, hsets]
          simp only [List.foldlM_cons, List.foldlM_nil, Option.bind_eq_bind, Option.bind_some]
          rw [hes]
          rfl
        · cases i with
          | zero =>
              rw [List.getElem?_cons_zero] at hes'
              rw [← Option.some.inj hes']
              exact his
          | succ i =>
              rw [List.getElem?_cons_succ] at hes'
              have hrest := hspec i es' hes'
              rwa [← hnext, Nat.add_right_comm, Nat.add_assoc] at hrest
  obtain ⟨sets, hsets, hlen, hspec⟩ := hrun vo.size le_rfl
  rw [Nat.sub_self] at hsets hspec
  refine ⟨sets, ?_, hlen, fun i es hes => ?_⟩
  · unfold gatherElimSets
    rw [List.range_eq_range', hsets]
    rfl
  · have his := hspec i es hes
    rwa [Nat.zero_add] at his

end Gather

/-! ## Removing non-cliques -/

section Remove

variable {o : VariableOrdering}

/-- The slot `j > i` at which the inner loop of `RemoveNonCliques` stops, if any. -/
def absorber (slots : List (Option (ElimSet o))) (i : ℕ) (possiblyContained : ElimSet o) :
    Option ℕ :=
  (List.range' (i + 1) (slots.length - (i + 1))).find? fun j =>
    match slots[j]? with
    | some (some possiblyContains) => possiblyContains.contains possiblyContained
    | _ => false

/-- `ElimSetCollection_ReMap`. -/
def reMap (slots : List (Option (ElimSet o))) (oldIndx newIndx : ℕ) :
    List (Option (ElimSet o)) :=
  (slots.set newIndx (slots[oldIndx]?.join)).set oldIndx none

/-- The outer loop of `RemoveNonCliques` from `i` on; after a replacement it looks at slot
`i` again. -/
def removeFrom : ℕ → ℕ → List (Option (ElimSet o)) → Option (List (Option (ElimSet o)))
  | 0, _, _ => none
  | rounds + 1, i, slots =>
      if i < slots.length then
        match slots[i]?.join with
        | none => removeFrom rounds (i + 1) slots
        | some possiblyContained =>
          match absorber slots i possiblyContained with
          | some j => removeFrom rounds i (reMap slots j i)
          | none => removeFrom rounds (i + 1) slots
      else some slots

/-- `ElimSetCollection_RemoveNonCliques`; every round leaves a slot behind or empties one. -/
def removeNonCliques (this : ElimSetCollection o) : Option (ElimSetCollection o) :=
  (removeFrom (2 * this.elimSets.length + 1) 0 this.elimSets).map ElimSetCollection.mk

/-- Every set of `slots` lies in a set of `slots'`, and `slots'` has no others. -/
structure Absorbed (slots slots' : List (Option (ElimSet o))) : Prop where
  cover : ∀ es, some es ∈ slots → ∃ es', some es' ∈ slots' ∧ es.vars ⊆ es'.vars
  mem : ∀ es, some es ∈ slots' → some es ∈ slots

theorem Absorbed.refl (slots : List (Option (ElimSet o))) : Absorbed slots slots :=
  ⟨fun es hes => ⟨es, hes, Finset.Subset.refl _⟩, fun _ hes => hes⟩

theorem Absorbed.trans {s s' s'' : List (Option (ElimSet o))} (h : Absorbed s s')
    (h' : Absorbed s' s'') : Absorbed s s'' := by
  refine ⟨fun es hes => ?_, fun es hes => h.mem es (h'.mem es hes)⟩
  obtain ⟨es', hes', hsub⟩ := h.cover es hes
  obtain ⟨es'', hes'', hsub'⟩ := h'.cover es' hes'
  exact ⟨es'', hes'', hsub.trans hsub'⟩

theorem absorber_eq_some {slots : List (Option (ElimSet o))} {i j : ℕ} {es : ElimSet o}
    (h : absorber slots i es = some j) :
    i < j ∧ ∃ es', slots[j]? = some (some es') ∧ es.vars ⊆ es'.vars := by
  unfold absorber at h
  have hmem := List.mem_of_find?_eq_some h
  have hfound := List.find?_some h
  rw [List.mem_range'_1] at hmem
  refine ⟨by omega, ?_⟩
  revert hfound
  cases hslot : slots[j]? with
  | none => intro hfound; exact absurd hfound (by simp)
  | some slot =>
      cases slot with
      | none => intro hfound; exact absurd hfound (by simp)
      | some es' =>
          intro hfound
          exact ⟨es', rfl, (ElimSet.contains_iff es' es).mp hfound⟩

theorem getElem?_reMap {slots : List (Option (ElimSet o))} {i j : ℕ} (hij : i < j)
    (hi : i < slots.length) {slot : Option (ElimSet o)} (hj : slots[j]? = some slot) (k : ℕ) :
    (reMap slots j i)[k]? =
      if k = j then some none else if k = i then some slot else slots[k]? := by
  obtain ⟨hlt, -⟩ := List.getElem?_eq_some_iff.mp hj
  unfold reMap
  rw [hj]
  by_cases hkj : k = j
  · subst hkj
    rw [if_pos rfl, List.getElem?_set_self (by rw [List.length_set]; exact hlt)]
  · rw [if_neg hkj, List.getElem?_set_ne (Ne.symm hkj)]
    by_cases hki : k = i
    · subst hki
      rw [if_pos rfl, List.getElem?_set_self hi]
      rfl
    · rw [if_neg hki, List.getElem?_set_ne (Ne.symm hki)]

/-- Replacing a set by a larger one. -/
theorem absorbed_reMap {slots : List (Option (ElimSet o))} {i j : ℕ} {es es' : ElimSet o}
    (hi : slots[i]? = some (some es)) (hij : i < j) (hj : slots[j]? = some (some es'))
    (hsub : es.vars ⊆ es'.vars) : Absorbed slots (reMap slots j i) := by
  obtain ⟨hlt, -⟩ := List.getElem?_eq_some_iff.mp hi
  have hget := getElem?_reMap hij hlt hj
  have hkeep : some es' ∈ reMap slots j i := by
    apply List.mem_of_getElem? (i := i)
    rw [hget, if_neg hij.ne, if_pos rfl]
  refine ⟨fun s hs => ?_, fun s hs => ?_⟩
  · obtain ⟨k, hk⟩ := List.mem_iff_getElem?.mp hs
    by_cases hkj : k = j
    · rw [hkj, hj, Option.some.injEq, Option.some.injEq] at hk
      exact ⟨es', hkeep, hk ▸ Finset.Subset.refl _⟩
    · by_cases hki : k = i
      · rw [hki, hi, Option.some.injEq, Option.some.injEq] at hk
        exact ⟨es', hkeep, hk ▸ hsub⟩
      · refine ⟨s, List.mem_of_getElem? (i := k) ?_, Finset.Subset.refl _⟩
        rw [hget, if_neg hkj, if_neg hki, hk]
  · obtain ⟨k, hk⟩ := List.mem_iff_getElem?.mp hs
    rw [hget] at hk
    split at hk
    · exact absurd hk (by simp)
    · split at hk
      · rw [← Option.some.inj hk]
        exact List.mem_of_getElem? hj
      · exact List.mem_of_getElem? hk

/-- The sets that are left. -/
def numSets (slots : List (Option (ElimSet o))) : ℕ := slots.countP Option.isSome

theorem numSets_reMap {slots : List (Option (ElimSet o))} {i j : ℕ} {es es' : ElimSet o}
    (hi : slots[i]? = some (some es)) (hij : i < j) (hj : slots[j]? = some (some es')) :
    numSets (reMap slots j i) + 1 = numSets slots := by
  obtain ⟨hlt, hival⟩ := List.getElem?_eq_some_iff.mp hi
  obtain ⟨hltj, hjval⟩ := List.getElem?_eq_some_iff.mp hj
  unfold numSets reMap
  rw [hj]
  have hset : (slots.set i (some (some es')).join).countP Option.isSome =
      slots.countP Option.isSome := by
    have hpos : 0 < slots.countP Option.isSome :=
      List.countP_pos_iff.mpr ⟨some es, List.mem_of_getElem? hi, rfl⟩
    rw [List.countP_set hlt, hival]
    simp only [Option.isSome_some, if_true, Option.join_some]
    omega
  have hltj' : j < (slots.set i (some (some es')).join).length := by rwa [List.length_set]
  have hval : (slots.set i (some (some es')).join)[j] = some es' := by
    rw [List.getElem_set_ne hij.ne, hjval]
  have hpos : 0 < slots.countP Option.isSome :=
    List.countP_pos_iff.mpr ⟨some es, List.mem_of_getElem? hi, rfl⟩
  rw [List.countP_set hltj', hval, hset]
  simp only [Option.isSome_some, if_true, Option.isSome_none, Bool.false_eq_true, if_false]
  omega

theorem removeFrom_eq :
    ∀ (rounds i : ℕ) (slots : List (Option (ElimSet o))), i ≤ slots.length →
      slots.length - i + numSets slots < rounds →
      ∃ slots', removeFrom rounds i slots = some slots' ∧ Absorbed slots slots' := by
  intro rounds
  induction rounds with
  | zero => exact fun _ _ _ h => absurd h (Nat.not_lt_zero _)
  | succ rounds ih =>
      intro i slots hle hrounds
      unfold removeFrom
      by_cases hlt : i < slots.length
      · rw [if_pos hlt]
        have hnext := ih (i + 1) slots hlt (by omega)
        cases hslot : slots[i]?.join with
        | none => exact hnext
        | some es =>
            have hi : slots[i]? = some (some es) := Option.join_eq_some_iff.mp hslot
            simp only
            cases hfound : absorber slots i es with
            | none => exact hnext
            | some j =>
                obtain ⟨hij, es', hj, hsub⟩ := absorber_eq_some hfound
                have hlen : (reMap slots j i).length = slots.length := by
                  unfold reMap
                  rw [List.length_set, List.length_set]
                have hnum := numSets_reMap hi hij hj
                obtain ⟨slots', hrun, habs⟩ := ih i (reMap slots j i) (by omega) (by omega)
                exact ⟨slots', hrun, (absorbed_reMap hi hij hj hsub).trans habs⟩
      · rw [if_neg hlt]
        exact ⟨slots, rfl, Absorbed.refl slots⟩

/-- **`RemoveNonCliques`** ends with a part of the sets that covers them all. -/
theorem removeNonCliques_eq (this : ElimSetCollection o) :
    ∃ esc, removeNonCliques this = some esc ∧ Absorbed this.elimSets esc.elimSets := by
  have hnum : numSets this.elimSets ≤ this.elimSets.length := List.countP_le_length
  obtain ⟨slots, hrun, habs⟩ := removeFrom_eq (2 * this.elimSets.length + 1) 0 this.elimSets
    (Nat.zero_le _) (by omega)
  exact ⟨⟨slots⟩, by rw [removeNonCliques, hrun]; rfl, habs⟩

end Remove

end JunctionBox
