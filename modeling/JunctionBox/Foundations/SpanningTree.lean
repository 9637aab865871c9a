import JunctionBox.Foundations.JunctionTree
import Mathlib.Data.Finset.Card

/-!
# Greedy spanning trees

The greedy algorithm adds an edge whenever it joins two components.  `Progress`
is what holds in between: the edges so far form a forest, a labelling `comp`
tells the components apart, and components and edges together number as many as
the nodes.

Among the spanning trees of a family of sets the junction trees are those the
greedy algorithm finds when it always takes the pair with the largest
intersection (`IsJunctionTree.exists_greedy`): the edges chosen so far stay part
of some junction tree, because the next pair can be exchanged for an edge of the
tree that crosses the same components.
-/

namespace JunctionBox.Hypertree

open SimpleGraph

variable {κ ι : Type*} [DecidableEq κ]

/-- A forest on `nodes` with `numEdges` edges, its components told apart by `comp`. -/
structure Progress (nodes : Finset κ) (G : SimpleGraph κ) (comp : κ → κ) (numEdges : ℕ) :
    Prop where
  mem_of_adj : ∀ {u v}, G.Adj u v → u ∈ nodes
  acyclic : G.IsAcyclic
  reachable_iff : ∀ u ∈ nodes, ∀ v ∈ nodes, G.Reachable u v ↔ comp u = comp v
  card : (nodes.image comp).card + numEdges = nodes.card

/-- The labelling after the components of `u` and `v` have been merged. -/
def merge (comp : κ → κ) (u v x : κ) : κ := if comp x = comp u then comp v else comp x

theorem merge_eq_iff (comp : κ → κ) (u v x y : κ) :
    merge comp u v x = merge comp u v y ↔
      comp x = comp y ∨ (comp x = comp u ∧ comp y = comp v) ∨
        (comp x = comp v ∧ comp y = comp u) := by
  unfold merge
  split <;> split <;> grind

/-- Labels that differ after a merge differed before, and are not those that were merged. -/
theorem ne_of_merge_ne {comp : κ → κ} {u v x y : κ} (h : merge comp u v x ≠ merge comp u v y) :
    comp x ≠ comp y ∧ s(u, v) ≠ s(x, y) := by
  rw [Ne, merge_eq_iff, not_or, not_or] at h
  refine ⟨h.1, fun heq => ?_⟩
  rcases Sym2.eq_iff.mp heq with ⟨rfl, rfl⟩ | ⟨rfl, rfl⟩
  · exact h.2.1 ⟨rfl, rfl⟩
  · exact h.2.2 ⟨rfl, rfl⟩

theorem progress_start (nodes : Finset κ) : Progress nodes ⊥ id 0 where
  mem_of_adj h := absurd h (by simp)
  acyclic := by
    rw [isAcyclic_iff_forall_adj_isBridge]
    intro v w h
    exact absurd h (by simp)
  reachable_iff u _ v _ := by simp [reachable_bot]
  card := by rw [Finset.image_id, Nat.add_zero]

/-- Joining two components by an edge. -/
theorem Progress.join {nodes : Finset κ} {G : SimpleGraph κ} {comp : κ → κ} {numEdges : ℕ}
    (h : Progress nodes G comp numEdges) {u v : κ} (hu : u ∈ nodes) (hv : v ∈ nodes)
    (hne : comp u ≠ comp v) :
    Progress nodes (G ⊔ edge u v) (merge comp u v) (numEdges + 1) := by
  have huv : u ≠ v := fun heq => hne (heq ▸ rfl)
  have hnew : (G ⊔ edge u v).Adj u v := Or.inr ((edge_adj u v u v).mpr ⟨Or.inl ⟨rfl, rfl⟩, huv⟩)
  have hmem : ∀ {x y}, (G ⊔ edge u v).Adj x y → x ∈ nodes := by
    intro x y hadj
    rcases hadj with hadj | hadj
    · exact h.mem_of_adj hadj
    · obtain ⟨⟨rfl, rfl⟩ | ⟨rfl, rfl⟩, -⟩ := (edge_adj u v x y).mp hadj
      · exact hu
      · exact hv
  have hold : ∀ {x y}, x ∈ nodes → y ∈ nodes → comp x = comp y →
      (G ⊔ edge u v).Reachable x y := fun hx hy heq =>
    ((h.reachable_iff _ hx _ hy).mpr heq).mono le_sup_left
  refine ⟨hmem, h.acyclic.sup_edge_of_not_reachable
    fun hreach => hne ((h.reachable_iff u hu v hv).mp hreach), fun x hx y hy => ⟨?_, ?_⟩, ?_⟩
  · rintro ⟨p⟩
    induction p with
    | nil => rfl
    | @cons x z y hadj p ih =>
        have hz : z ∈ nodes := hmem hadj.symm
        refine Eq.trans ?_ (ih hz hy)
        rw [merge_eq_iff]
        rcases hadj with hadj | hadj
        · exact Or.inl ((h.reachable_iff x hx z hz).mp hadj.reachable)
        · obtain ⟨⟨rfl, rfl⟩ | ⟨rfl, rfl⟩, -⟩ := (edge_adj u v x z).mp hadj
          · exact Or.inr (Or.inl ⟨rfl, rfl⟩)
          · exact Or.inr (Or.inr ⟨rfl, rfl⟩)
  · intro heq
    rcases (merge_eq_iff comp u v x y).mp heq with heq | ⟨hxu, hyv⟩ | ⟨hxv, hyu⟩
    · exact hold hx hy heq
    · exact ((hold hx hu hxu).trans hnew.reachable).trans (hold hv hy hyv.symm)
    · exact ((hold hx hv hxv).trans hnew.symm.reachable).trans (hold hu hy hyu.symm)
  · -- the label of `u` disappears, the others stay
    have himage : nodes.image (merge comp u v) = (nodes.image comp).erase (comp u) := by
      ext c
      simp only [Finset.mem_image, Finset.mem_erase, merge]
      constructor
      · rintro ⟨x, hx, rfl⟩
        by_cases heq : comp x = comp u
        · rw [if_pos heq]
          exact ⟨hne.symm, v, hv, rfl⟩
        · rw [if_neg heq]
          exact ⟨heq, x, hx, rfl⟩
      · rintro ⟨hcu, x, hx, rfl⟩
        exact ⟨x, hx, if_neg hcu⟩
    have hcard := Finset.card_erase_add_one (Finset.mem_image_of_mem comp hu)
    rw [himage]
    have htotal := h.card
    omega

/-- A forest with one edge less than nodes is a tree. -/
theorem Progress.isTreeOn_of_numEdges {nodes : Finset κ} {G : SimpleGraph κ} {comp : κ → κ}
    {numEdges : ℕ} (h : Progress nodes G comp numEdges) (hedges : numEdges + 1 = nodes.card) :
    IsTreeOn (nodes : Set κ) G := by
  refine ⟨fun hadj => h.mem_of_adj hadj, fun {u v} hu hv => ?_, h.acyclic⟩
  have hone : (nodes.image comp).card = 1 := by
    have htotal := h.card
    omega
  obtain ⟨c, hc⟩ := Finset.card_eq_one.mp hone
  have hcomp : ∀ w ∈ nodes, comp w = c := fun w hw =>
    Finset.mem_singleton.mp (hc ▸ Finset.mem_image_of_mem comp hw)
  exact (h.reachable_iff u hu v hv).mpr ((hcomp u hu).trans (hcomp v hv).symm)

theorem Progress.isTreeOn_of_reachable {nodes : Finset κ} {G : SimpleGraph κ} {comp : κ → κ}
    {numEdges : ℕ} (h : Progress nodes G comp numEdges)
    (hreach : ∀ u ∈ nodes, ∀ v ∈ nodes, G.Reachable u v) : IsTreeOn (nodes : Set κ) G :=
  ⟨fun hadj => h.mem_of_adj hadj, fun {u v} hu hv => hreach u hu v hv, h.acyclic⟩

omit [DecidableEq κ] in
/-- A tree contained in another one on the same nodes is that tree. -/
theorem IsTreeOn.eq_of_le {nodes : Set κ} {G T : SimpleGraph κ} (hG : IsTreeOn nodes G)
    (hT : IsTreeOn nodes T) (hle : G ≤ T) : G = T := by
  refine le_antisymm hle fun u v hadj => ?_
  by_contra hnot
  -- a `G`-path from `u` to `v` would close a cycle with the edge `u v`
  obtain ⟨p⟩ := hG.reachable (hT.mem_of_adj hadj) (hT.mem_of_adj_right hadj)
  have hbridge := isAcyclic_iff_forall_adj_isBridge.mp hT.acyclic hadj
  rw [isBridge_iff] at hbridge
  refine hbridge ⟨p.transfer _ fun e he => ?_⟩
  have heG := p.edges_subset_edgeSet he
  rw [edgeSet_deleteEdges, Set.mem_sdiff, Set.mem_singleton_iff]
  exact ⟨edgeSet_mono hle heG, fun heq => hnot ((mem_edgeSet G).mp (heq ▸ heG))⟩

omit [DecidableEq κ] in
/-- In a forest a path runs in every subgraph that joins its ends. -/
theorem mem_edgeSet_of_reachable {G T : SimpleGraph κ} (hT : T.IsAcyclic) (hle : G ≤ T)
    {u v : κ} (hreach : G.Reachable u v) {p : T.Walk u v} (hp : p.IsPath) {e : Sym2 κ}
    (he : e ∈ p.edges) : e ∈ G.edgeSet := by
  classical
  obtain ⟨q⟩ := hreach
  have hq : (q.toPath.1.mapLe hle).IsPath := q.toPath.2.mapLe hle
  have heq : p = q.toPath.1.mapLe hle :=
    congrArg Subtype.val ((hT.subsingleton_path u v).elim ⟨p, hp⟩ ⟨_, hq⟩)
  rw [heq, Walk.edges_mapLe_eq_edges] at he
  exact Walk.edges_subset_edgeSet _ he

section Greedy

variable [DecidableEq ι]

omit [DecidableEq κ] in
/-- A path between two components has an edge between two components. -/
theorem exists_crossing {G T : SimpleGraph κ} {u v : κ} (p : T.Walk u v)
    (h : ¬G.Reachable u v) : ∃ a b, s(a, b) ∈ p.edges ∧ ¬G.Reachable a b := by
  induction p with
  | nil => exact absurd (Reachable.refl _) h
  | @cons u w v hadj p ih =>
      by_cases huw : G.Reachable u w
      · obtain ⟨a, b, hab, hcross⟩ := ih fun hwv => h (huw.trans hwv)
        exact ⟨a, b, List.mem_cons_of_mem _ hab, hcross⟩
      · exact ⟨u, w, List.mem_cons_self .., huw⟩

omit [DecidableEq κ] in
/-- A subgraph that does not connect `a` and `b` does without the edge `a b`. -/
theorem le_deleteEdges {G T : SimpleGraph κ} (hG : G ≤ T) {a b : κ} (hab : ¬G.Reachable a b) :
    G ≤ T.deleteEdges {s(a, b)} := by
  intro x y hxy
  rw [deleteEdges_adj]
  refine ⟨hG hxy, fun heq => hab ?_⟩
  rcases Sym2.eq_iff.mp (Set.mem_singleton_iff.mp heq) with ⟨rfl, rfl⟩ | ⟨rfl, rfl⟩
  · exact hxy.reachable
  · exact hxy.reachable.symm

omit [DecidableEq κ] in
/-- **The greedy choice.**  If the forest `G` is part of a junction tree and `u v` has the
largest intersection of all pairs from different components, then `G` with `u v` is
part of a junction tree too. -/
theorem IsJunctionTree.exists_greedy {nodes : Set κ} {C : κ → Finset ι} {G T : SimpleGraph κ}
    (hT : IsJunctionTree nodes C T) (hG : G ≤ T) {u v : κ} (hu : u ∈ nodes) (hv : v ∈ nodes)
    (hcross : ¬G.Reachable u v)
    (hmax : ∀ a ∈ nodes, ∀ b ∈ nodes, ¬G.Reachable a b → (C a ∩ C b).card ≤ (C u ∩ C v).card) :
    ∃ T', IsJunctionTree nodes C T' ∧ G ⊔ edge u v ≤ T' := by
  obtain ⟨p, hp⟩ := (hT.reachable hu hv).exists_isPath
  obtain ⟨a, b, hab, habcross⟩ := exists_crossing p hcross
  have hadj : T.Adj a b := p.adj_of_mem_edges hab
  have hsub : C u ∩ C v ⊆ C a ∩ C b := Finset.subset_inter
    (hT.runningIntersection p hp a (p.fst_mem_support_of_mem_edges hab))
    (hT.runningIntersection p hp b (p.snd_mem_support_of_mem_edges hab))
  have hsep : C u ∩ C v = C a ∩ C b := Finset.eq_of_subset_of_card_le hsub
    (hmax a (hT.mem_of_adj hadj) b (hT.mem_of_adj_right hadj) habcross)
  exact ⟨_, hT.exchange hu hv p hp hab hsep, sup_le_sup_right (le_deleteEdges hG habcross) _⟩

end Greedy

end JunctionBox.Hypertree
