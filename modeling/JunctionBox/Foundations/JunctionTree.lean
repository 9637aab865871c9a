import Mathlib.Combinatorics.SimpleGraph.Acyclic

/-!
# Junction trees

A tree `T` on a set of nodes, each node `u` carrying a finite set `C u`, is a
junction tree when it has the running intersection property: every node on the
path between `u` and `v` contains `C u ∩ C v`.

The property is used through the subgraphs `carrying C i T` of the edges whose
two ends contain `i`.  In a tree, running intersection says that for every `i`
the nodes containing `i` are connected inside that subgraph
(`runningIntersection_iff_carrying`), and in this form it survives surgery on
the tree:

* `IsJunctionTree.exchange`: an edge on the path from `u` to `v` may be replaced
  by the edge `u v` when the two intersections agree;
* `IsJunctionTree.insert`: a new leaf may be attached to a node that contains
  whatever the leaf shares with the tree;
* `IsJunctionTree.comapOn`: nodes may be renamed.
-/

namespace JunctionBox.Hypertree

open SimpleGraph

variable {κ κ' ι : Type*}

/-- `T` is a tree whose vertices are `nodes`; outside `nodes` there are no edges. -/
structure IsTreeOn (nodes : Set κ) (T : SimpleGraph κ) : Prop where
  mem_of_adj : ∀ {u v}, T.Adj u v → u ∈ nodes
  reachable : ∀ {u v}, u ∈ nodes → v ∈ nodes → T.Reachable u v
  acyclic : T.IsAcyclic

/-- Every node on the path between two nodes contains their intersection. -/
def RunningIntersection [DecidableEq ι] (C : κ → Finset ι) (T : SimpleGraph κ) : Prop :=
  ∀ {u v} (p : T.Walk u v), p.IsPath → ∀ w ∈ p.support, C u ∩ C v ⊆ C w

structure IsJunctionTree [DecidableEq ι] (nodes : Set κ) (C : κ → Finset ι)
    (T : SimpleGraph κ) : Prop extends IsTreeOn nodes T where
  runningIntersection : RunningIntersection C T

/-! ## Reachability -/

/-- Reachability is generated by the edges. -/
theorem reachable_of_adj {H H' : SimpleGraph κ} (h : ∀ x y, H.Adj x y → H'.Reachable x y)
    {x y : κ} (hxy : H.Reachable x y) : H'.Reachable x y := by
  obtain ⟨p⟩ := hxy
  induction p with
  | nil => exact Reachable.refl _
  | cons hadj _ ih => exact (h _ _ hadj).trans ih

theorem mem_of_reachable_ne {nodes : Set κ} {T : SimpleGraph κ}
    (hmem : ∀ {u v}, T.Adj u v → u ∈ nodes) {x y : κ} (h : T.Reachable x y) (hne : x ≠ y) :
    x ∈ nodes := by
  obtain ⟨p⟩ := h
  cases p with
  | nil => exact absurd rfl hne
  | cons hadj _ => exact hmem hadj

theorem IsTreeOn.mem_of_adj_right {nodes : Set κ} {T : SimpleGraph κ} (hT : IsTreeOn nodes T)
    {u v : κ} (h : T.Adj u v) : v ∈ nodes := hT.mem_of_adj h.symm

/-- Removing an edge of a trail leaves its two ends attached to the two ends of the
trail. -/
theorem split_of_mem_edges {H : SimpleGraph κ} {u v a b : κ} (p : H.Walk u v) (hp : p.IsTrail)
    (hab : s(a, b) ∈ p.edges) :
    ((H.deleteEdges {s(a, b)}).Reachable u a ∧ (H.deleteEdges {s(a, b)}).Reachable b v) ∨
      ((H.deleteEdges {s(a, b)}).Reachable u b ∧ (H.deleteEdges {s(a, b)}).Reachable a v) := by
  induction p with
  | nil => simp at hab
  | @cons u w v hadj p ih =>
      rw [Walk.isTrail_cons] at hp
      by_cases hhead : s(a, b) = s(u, w)
      · have htail : (H.deleteEdges {s(a, b)}).Reachable w v := by
          refine ⟨p.transfer _ fun e he => ?_⟩
          rw [edgeSet_deleteEdges, Set.mem_sdiff]
          refine ⟨p.edges_subset_edgeSet he, fun heq => hp.2 ?_⟩
          rw [Set.mem_singleton_iff, hhead] at heq
          exact heq ▸ he
        rcases Sym2.eq_iff.mp hhead with ⟨rfl, rfl⟩ | ⟨rfl, rfl⟩
        · exact Or.inl ⟨Reachable.refl _, htail⟩
        · exact Or.inr ⟨Reachable.refl _, htail⟩
      · have hmem : s(a, b) ∈ p.edges := by
          rw [Walk.edges_cons, List.mem_cons] at hab
          exact hab.resolve_left hhead
        have hstep : (H.deleteEdges {s(a, b)}).Reachable u w := by
          refine Adj.reachable ?_
          rw [deleteEdges_adj]
          exact ⟨hadj, fun heq => hhead (Set.mem_singleton_iff.mp heq).symm⟩
        rcases ih hp.1 hmem with ⟨hua, hbv⟩ | ⟨hub, hav⟩
        · exact Or.inl ⟨hstep.trans hua, hbv⟩
        · exact Or.inr ⟨hstep.trans hub, hav⟩

/-- A graph that keeps all edges but one and joins the ends of a trail through
the missing edge reaches as far as before. -/
theorem reachable_of_bypass {H H' : SimpleGraph κ} {u v a b : κ} (p : H.Walk u v)
    (hp : p.IsTrail) (hab : s(a, b) ∈ p.edges) (hle : H.deleteEdges {s(a, b)} ≤ H')
    (huv : H'.Reachable u v) {x y : κ} (hxy : H.Reachable x y) : H'.Reachable x y := by
  have hends : H'.Reachable a b := by
    rcases split_of_mem_edges p hp hab with ⟨hua, hbv⟩ | ⟨hub, hav⟩
    · exact ((hua.mono hle).symm.trans huv).trans (hbv.mono hle).symm
    · exact ((hav.mono hle).trans huv.symm).trans (hub.mono hle)
  refine reachable_of_adj (fun x y hadj => ?_) hxy
  by_cases heq : s(x, y) = s(a, b)
  · rcases Sym2.eq_iff.mp heq with ⟨rfl, rfl⟩ | ⟨rfl, rfl⟩
    · exact hends
    · exact hends.symm
  · refine Adj.reachable (hle ?_)
    rw [deleteEdges_adj]
    exact ⟨hadj, heq⟩

/-! ## The edges carrying an element -/

/-- The edges of `T` both of whose ends contain `i`. -/
def carrying (C : κ → Finset ι) (i : ι) (T : SimpleGraph κ) : SimpleGraph κ where
  Adj u v := T.Adj u v ∧ i ∈ C u ∧ i ∈ C v
  symm := ⟨fun _ _ h => ⟨h.1.symm, h.2.2, h.2.1⟩⟩
  loopless := ⟨fun _ h => T.irrefl h.1⟩

theorem carrying_le (C : κ → Finset ι) (i : ι) (T : SimpleGraph κ) : carrying C i T ≤ T :=
  fun _ _ h => h.1

theorem carrying_mono (C : κ → Finset ι) (i : ι) {T T' : SimpleGraph κ} (h : T ≤ T') :
    carrying C i T ≤ carrying C i T' :=
  fun _ _ hadj => ⟨h hadj.1, hadj.2⟩

theorem carrying_reachable_of_walk {C : κ → Finset ι} {i : ι} {T : SimpleGraph κ} {u v : κ}
    (p : T.Walk u v) (h : ∀ w ∈ p.support, i ∈ C w) : (carrying C i T).Reachable u v := by
  induction p with
  | nil => exact Reachable.refl _
  | cons hadj p ih =>
      have hstep : (carrying C i T).Adj _ _ :=
        ⟨hadj, h _ (by simp), h _ (by simp)⟩
      exact hstep.reachable.trans (ih fun w hw => h w (by simp [hw]))

theorem mem_of_carrying_walk {C : κ → Finset ι} {i : ι} {T : SimpleGraph κ} {u v : κ}
    (p : (carrying C i T).Walk u v) (hu : i ∈ C u) : ∀ w ∈ p.support, i ∈ C w := by
  induction p with
  | nil => simpa using hu
  | cons hadj p ih =>
      intro w hw
      rw [Walk.support_cons, List.mem_cons] at hw
      rcases hw with rfl | hw
      · exact hu
      · exact ih hadj.2.2 w hw

variable [DecidableEq ι]

/-- In a forest, running intersection says that the nodes containing `i` are connected
through edges carrying `i`. -/
theorem runningIntersection_iff_carrying {C : κ → Finset ι} {T : SimpleGraph κ}
    (hT : T.IsAcyclic) :
    RunningIntersection C T ↔
      ∀ i u v, T.Reachable u v → i ∈ C u → i ∈ C v → (carrying C i T).Reachable u v := by
  classical
  constructor
  · intro hri i u v huv hu hv
    obtain ⟨p, hp⟩ := huv.exists_isPath
    exact carrying_reachable_of_walk p fun w hw =>
      hri p hp w hw (Finset.mem_inter.mpr ⟨hu, hv⟩)
  · intro hcarry u v p hp w hw i hi
    rw [Finset.mem_inter] at hi
    obtain ⟨q, hq⟩ := (hcarry i u v p.reachable hi.1 hi.2).exists_isPath
    -- paths in a forest are unique, so `p` itself runs through nodes containing `i`
    have heq : p = q.mapLe (carrying_le C i T) :=
      Subtype.mk.inj ((hT.subsingleton_path u v).elim ⟨p, hp⟩
        ⟨_, Walk.isPath_mapLe (carrying_le C i T) |>.mpr hq⟩)
    rw [heq, Walk.support_mapLe_eq_support] at hw
    exact mem_of_carrying_walk q hi.1 w hw

/-! ## Surgery -/

section Surgery

variable {nodes : Set κ} {C : κ → Finset ι} {T : SimpleGraph κ}

omit [DecidableEq ι] in
/-- Cutting the path between two nodes of a forest separates them. -/
theorem not_reachable_of_cut (hT : T.IsAcyclic) {u v a b : κ} (p : T.Walk u v) (hp : p.IsPath)
    (hab : s(a, b) ∈ p.edges) : ¬(T.deleteEdges {s(a, b)}).Reachable u v := by
  classical
  rintro hreach
  obtain ⟨q, hq⟩ := hreach.exists_isPath
  have heq : p = q.mapLe (deleteEdges_le _) :=
    Subtype.mk.inj ((hT.subsingleton_path u v).elim ⟨p, hp⟩
      ⟨_, Walk.isPath_mapLe (deleteEdges_le _) |>.mpr hq⟩)
  rw [heq, Walk.edges_mapLe_eq_edges] at hab
  have hmem := q.edges_subset_edgeSet hab
  simp at hmem

omit [DecidableEq ι] in
/-- A path with an edge has two ends. -/
theorem ne_of_mem_edges {u v a b : κ} (p : T.Walk u v) (hp : p.IsPath)
    (hab : s(a, b) ∈ p.edges) : u ≠ v := by
  rintro rfl
  have hnil : p.Nil := Walk.isPath_iff_nil.mp hp
  rw [Walk.eq_nil_iff_nil.mpr hnil] at hab
  simp at hab

omit [DecidableEq ι] in
/-- An edge on the path from `u` to `v` may be replaced by `u v`. -/
theorem IsTreeOn.exchange (hT : IsTreeOn nodes T) {u v a b : κ} (hu : u ∈ nodes) (hv : v ∈ nodes)
    (p : T.Walk u v) (hp : p.IsPath) (hab : s(a, b) ∈ p.edges) :
    IsTreeOn nodes (T.deleteEdges {s(a, b)} ⊔ edge u v) := by
  have hnew : (T.deleteEdges {s(a, b)} ⊔ edge u v).Adj u v :=
    Or.inr ((edge_adj u v u v).mpr ⟨Or.inl ⟨rfl, rfl⟩, ne_of_mem_edges p hp hab⟩)
  refine ⟨fun {x y} h => ?_, fun {x y} hx hy => ?_,
    (hT.acyclic.anti (deleteEdges_le _)).sup_edge_of_not_reachable
      (not_reachable_of_cut hT.acyclic p hp hab)⟩
  · rcases h with h | h
    · exact hT.mem_of_adj ((deleteEdges_adj).mp h).1
    · obtain ⟨⟨rfl, rfl⟩ | ⟨rfl, rfl⟩, -⟩ := (edge_adj u v x y).mp h
      · exact hu
      · exact hv
  · exact reachable_of_bypass p hp.isTrail hab le_sup_left hnew.reachable (hT.reachable hx hy)

/-- An edge `a b` on the path from `u` to `v` may be replaced by `u v` when
`C u ∩ C v = C a ∩ C b`. -/
theorem IsJunctionTree.exchange (hT : IsJunctionTree nodes C T) {u v a b : κ}
    (hu : u ∈ nodes) (hv : v ∈ nodes) (p : T.Walk u v) (hp : p.IsPath)
    (hab : s(a, b) ∈ p.edges) (hsep : C u ∩ C v = C a ∩ C b) :
    IsJunctionTree nodes C (T.deleteEdges {s(a, b)} ⊔ edge u v) := by
  classical
  set T' := T.deleteEdges {s(a, b)} ⊔ edge u v with hT'
  have htree : IsTreeOn nodes T' := hT.toIsTreeOn.exchange hu hv p hp hab
  have hnew : T'.Adj u v :=
    Or.inr ((edge_adj u v u v).mpr ⟨Or.inl ⟨rfl, rfl⟩, ne_of_mem_edges p hp hab⟩)
  have hold : ∀ x y, T'.Adj x y → T.Reachable x y := by
    intro x y h
    rcases h with h | h
    · exact ((deleteEdges_adj).mp h).1.reachable
    · obtain ⟨⟨rfl, rfl⟩ | ⟨rfl, rfl⟩, -⟩ := (edge_adj u v x y).mp h
      · exact p.reachable
      · exact p.reachable.symm
  refine ⟨htree, ?_⟩
  rw [runningIntersection_iff_carrying htree.acyclic]
  intro i x y hxy hx hy
  have hcarry := (runningIntersection_iff_carrying hT.acyclic).mp hT.runningIntersection
  have hold' : (carrying C i T).Reachable x y := hcarry i x y (reachable_of_adj hold hxy) hx hy
  by_cases hi : i ∈ C a ∩ C b
  · -- `i` runs along the whole path, hence through the exchanged edge
    rw [← hsep, Finset.mem_inter] at hi
    obtain ⟨q, hq⟩ := (hcarry i u v p.reachable hi.1 hi.2).exists_isPath
    have heq : p = q.mapLe (carrying_le C i T) :=
      Subtype.mk.inj ((hT.acyclic.subsingleton_path u v).elim ⟨p, hp⟩
        ⟨_, Walk.isPath_mapLe (carrying_le C i T) |>.mpr hq⟩)
    have habq : s(a, b) ∈ q.edges := by
      rwa [heq, Walk.edges_mapLe_eq_edges] at hab
    refine reachable_of_bypass q hq.isTrail habq (fun x y h => ?_) ?_ hold'
    · rw [deleteEdges_adj] at h
      exact ⟨Or.inl ((deleteEdges_adj).mpr ⟨h.1.1, h.2⟩), h.1.2⟩
    · exact Adj.reachable ⟨hnew, hi⟩
  · have hle : carrying C i T ≤ carrying C i T' := by
      intro x y h
      refine ⟨Or.inl ((deleteEdges_adj).mpr ⟨h.1, fun heq => hi ?_⟩), h.2⟩
      rcases Sym2.eq_iff.mp (Set.mem_singleton_iff.mp heq) with ⟨rfl, rfl⟩ | ⟨rfl, rfl⟩
      · exact Finset.mem_inter.mpr h.2
      · exact Finset.mem_inter.mpr ⟨h.2.2, h.2.1⟩
    exact hold'.mono hle

/-- A new leaf `a` may hang on a node `b` containing all that `a` shares with the tree. -/
theorem IsJunctionTree.insert (hT : IsJunctionTree nodes C T) {a b : κ} (ha : a ∉ nodes)
    (hb : b ∈ nodes) (hshare : ∀ v ∈ nodes, C a ∩ C v ⊆ C b) :
    IsJunctionTree (Insert.insert a nodes) C (T ⊔ edge a b) := by
  have hne : a ≠ b := fun h => ha (h ▸ hb)
  have hnew : (T ⊔ edge a b).Adj a b := Or.inr ((edge_adj a b a b).mpr ⟨Or.inl ⟨rfl, rfl⟩, hne⟩)
  -- `a` is isolated in `T`
  have hisolated : ∀ v, v ≠ a → ¬T.Reachable a v := by
    rintro v hv ⟨p⟩
    cases p with
    | nil => exact hv rfl
    | cons hadj _ => exact ha (hT.mem_of_adj hadj)
  have hacyclic : (T ⊔ edge a b).IsAcyclic :=
    hT.acyclic.sup_edge_of_not_reachable (hisolated b hne.symm)
  have hreach : ∀ v ∈ nodes, (T ⊔ edge a b).Reachable a v := fun v hv =>
    hnew.reachable.trans ((hT.reachable hb hv).mono le_sup_left)
  have hmem : ∀ {x y}, (T ⊔ edge a b).Adj x y → x ∈ Insert.insert a nodes := by
    intro x y h
    rcases h with h | h
    · exact Or.inr (hT.mem_of_adj h)
    · obtain ⟨⟨rfl, rfl⟩ | ⟨rfl, rfl⟩, -⟩ := (edge_adj a b x y).mp h
      · exact Or.inl rfl
      · exact Or.inr hb
  refine ⟨⟨hmem, fun {x y} hx hy => ?_, hacyclic⟩, ?_⟩
  · rcases hx with rfl | hx <;> rcases hy with rfl | hy
    · exact Reachable.refl _
    · exact hreach y hy
    · exact (hreach x hx).symm
    · exact (hT.reachable hx hy).mono le_sup_left
  · rw [runningIntersection_iff_carrying hacyclic]
    have hcarry := (runningIntersection_iff_carrying hT.acyclic).mp hT.runningIntersection
    have hleaf : ∀ i v, v ∈ nodes → i ∈ C a → i ∈ C v →
        (carrying C i (T ⊔ edge a b)).Reachable a v := by
      intro i v hv hia hiv
      have hib : i ∈ C b := hshare v hv (Finset.mem_inter.mpr ⟨hia, hiv⟩)
      have hstep : (carrying C i (T ⊔ edge a b)).Adj a b := ⟨hnew, hia, hib⟩
      exact hstep.reachable.trans ((hcarry i b v (hT.reachable hb hv) hib hiv).mono
        (carrying_mono C i le_sup_left))
    intro i x y hxy hx hy
    by_cases heq : x = y
    · exact heq ▸ Reachable.refl _
    have hxmem : x ∈ Insert.insert a nodes := mem_of_reachable_ne hmem hxy heq
    have hymem : y ∈ Insert.insert a nodes := mem_of_reachable_ne hmem hxy.symm (Ne.symm heq)
    rcases hxmem with rfl | hxmem <;> rcases hymem with rfl | hymem
    · exact absurd rfl heq
    · exact hleaf i y hymem hx hy
    · exact (hleaf i x hxmem hy hx).symm
    · exact (hcarry i x y (hT.reachable hxmem hymem) hx hy).mono (carrying_mono C i le_sup_left)

omit [DecidableEq ι] in
/-- One node is a junction tree. -/
theorem isTreeOn_singleton (a : κ) : IsTreeOn {a} (⊥ : SimpleGraph κ) where
  mem_of_adj h := absurd h (by simp)
  reachable hu hv := by
    rw [Set.mem_singleton_iff.mp hu, Set.mem_singleton_iff.mp hv]
  acyclic := by
    rw [isAcyclic_iff_forall_adj_isBridge]
    intro v w h
    exact absurd h (by simp)

theorem isJunctionTree_singleton (C : κ → Finset ι) (a : κ) :
    IsJunctionTree {a} C (⊥ : SimpleGraph κ) where
  toIsTreeOn := isTreeOn_singleton a
  runningIntersection := by
    rintro u v (_ | ⟨hadj, p⟩) - w hw
    · rw [Walk.support_nil, List.mem_singleton] at hw
      rw [hw]
      exact Finset.inter_subset_left
    · exact absurd hadj (by simp)

end Surgery

/-! ## Renaming the nodes -/

/-- The graph on `nodes'` that `f` maps into `T`. -/
def comapOn (f : κ' → κ) (nodes' : Set κ') (T : SimpleGraph κ) : SimpleGraph κ' where
  Adj x y := x ∈ nodes' ∧ y ∈ nodes' ∧ T.Adj (f x) (f y)
  symm := ⟨fun _ _ h => ⟨h.2.1, h.1, h.2.2.symm⟩⟩
  loopless := ⟨fun _ h => T.irrefl h.2.2⟩

section Renaming

variable {f : κ' → κ} {nodes' : Set κ'} {nodes : Set κ} {T : SimpleGraph κ}

omit [DecidableEq ι] in
theorem comapOn_reachable (hinj : Set.InjOn f nodes') (himage : f '' nodes' = nodes)
    (hmem : ∀ {u v}, T.Adj u v → u ∈ nodes) {x y : κ'} (hx : x ∈ nodes') (hy : y ∈ nodes')
    (h : T.Reachable (f x) (f y)) : (comapOn f nodes' T).Reachable x y := by
  have hwalk : ∀ {u v : κ}, T.Walk u v → ∀ x ∈ nodes', f x = u → ∀ y ∈ nodes', f y = v →
      (comapOn f nodes' T).Reachable x y := by
    intro u v p
    induction p with
    | nil =>
        intro x hx hxu y hy hyu
        rw [hinj hx hy (hxu.trans hyu.symm)]
    | cons hadj p ih =>
        intro x hx hxu y hy hyv
        obtain ⟨z, hz, hzw⟩ : _ ∈ f '' nodes' := himage ▸ hmem hadj.symm
        have hstep : (comapOn f nodes' T).Adj x z := ⟨hx, hz, by rwa [hxu, hzw]⟩
        exact hstep.reachable.trans (ih z hz hzw y hy hyv)
  obtain ⟨p⟩ := h
  exact hwalk p x hx rfl y hy rfl

omit [DecidableEq ι] in
theorem comapOn_acyclic (hinj : Set.InjOn f nodes') (hT : T.IsAcyclic) :
    (comapOn f nodes' T).IsAcyclic := by
  rw [isAcyclic_iff_forall_adj_isBridge] at hT ⊢
  intro v w hadj
  have hbridge := hT hadj.2.2
  rw [isBridge_iff] at hbridge ⊢
  intro hreach
  obtain ⟨p⟩ := hreach
  refine hbridge ?_
  clear hbridge
  suffices hwalk : ∀ {x y : κ'}, ((comapOn f nodes' T).deleteEdges {s(v, w)}).Walk x y →
      (T.deleteEdges {s(f v, f w)}).Reachable (f x) (f y) from hwalk p
  intro x y p
  induction p with
  | nil => exact Reachable.refl _
  | @cons x z y hxz p ih =>
      refine Reachable.trans (Adj.reachable ?_) ih
      rw [deleteEdges_adj] at hxz ⊢
      obtain ⟨⟨hx, hz, hT⟩, hne⟩ := hxz
      refine ⟨hT, fun heq => hne (Set.mem_singleton_iff.mpr ?_)⟩
      rcases Sym2.eq_iff.mp (Set.mem_singleton_iff.mp heq) with ⟨h1, h2⟩ | ⟨h1, h2⟩
      · rw [hinj hx hadj.1 h1, hinj hz hadj.2.1 h2]
      · rw [hinj hx hadj.2.1 h1, hinj hz hadj.1 h2, Sym2.eq_swap]

/-- A junction tree may be read on other names for its nodes. -/
theorem IsJunctionTree.comapOn {C : κ → Finset ι} {C' : κ' → Finset ι}
    (hT : IsJunctionTree nodes C T) (hinj : Set.InjOn f nodes') (himage : f '' nodes' = nodes)
    (hC : ∀ x ∈ nodes', C' x = C (f x)) :
    IsJunctionTree nodes' C' (Hypertree.comapOn f nodes' T) := by
  have hnode : ∀ x ∈ nodes', f x ∈ nodes := fun x hx => himage ▸ Set.mem_image_of_mem f hx
  have hacyclic : (Hypertree.comapOn f nodes' T).IsAcyclic := comapOn_acyclic hinj hT.acyclic
  refine ⟨⟨fun h => h.1, fun {x y} hx hy =>
    comapOn_reachable hinj himage hT.mem_of_adj hx hy (hT.reachable (hnode x hx) (hnode y hy)),
    hacyclic⟩, ?_⟩
  rw [runningIntersection_iff_carrying hacyclic]
  intro i x y hxy hix hiy
  by_cases heq : x = y
  · exact heq ▸ Reachable.refl _
  have hmem : ∀ {u v}, (Hypertree.comapOn f nodes' T).Adj u v → u ∈ nodes' := fun h => h.1
  have hx : x ∈ nodes' := mem_of_reachable_ne hmem hxy heq
  have hy : y ∈ nodes' := mem_of_reachable_ne hmem hxy.symm (Ne.symm heq)
  have hcarry := (runningIntersection_iff_carrying hT.acyclic).mp hT.runningIntersection i (f x)
    (f y) (hT.reachable (hnode x hx) (hnode y hy)) (hC x hx ▸ hix) (hC y hy ▸ hiy)
  have hle : Hypertree.comapOn f nodes' (carrying C i T) ≤
      carrying C' i (Hypertree.comapOn f nodes' T) := by
    intro u v h
    obtain ⟨hu, hv, hadj, hiu, hiv⟩ := h
    exact ⟨⟨hu, hv, hadj⟩, by rwa [hC u hu], by rwa [hC v hv]⟩
  exact (comapOn_reachable hinj himage (fun {u v} h => hT.mem_of_adj (carrying_le C i T h))
    hx hy hcarry).mono hle

end Renaming

end JunctionBox.Hypertree
