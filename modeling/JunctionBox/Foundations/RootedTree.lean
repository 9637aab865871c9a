import JunctionBox.Foundations.JunctionTree
import Mathlib.Combinatorics.SimpleGraph.Metric

/-!
# Rooted trees

A rooting of a tree gives every node but the root a parent one step closer to
the root, and every edge joins a node to its parent.  `Below w v` says that
`v` is met on the way from `w` up to the root.

The subtree below `v` hangs on the rest of the tree by the single edge to the
parent of `v` (`Rooting.mem_edges_of_not_below`), so under running intersection
whatever `v` shares with a node outside its subtree is in the parent as well
(`Rooting.inter_subset_parent`).

A list of nodes in which nobody comes after one of its ancestors is a
post-order.  The traversals of a tree are compared with `IsPostOrder`.
-/

namespace JunctionBox.Hypertree

open SimpleGraph

variable {κ ι : Type*}

/-- Parents and depths for a tree `T` on `nodes`. -/
structure Rooting (nodes : Set κ) (T : SimpleGraph κ) (root : κ) where
  parent : κ → κ
  depth : κ → ℕ
  root_mem : root ∈ nodes
  depth_root : depth root = 0
  adj_parent : ∀ {v}, v ∈ nodes → v ≠ root → T.Adj v (parent v)
  depth_parent : ∀ {v}, v ∈ nodes → v ≠ root → depth v = depth (parent v) + 1
  parent_of_adj : ∀ {u v}, T.Adj u v →
    (v ≠ root ∧ parent v = u) ∨ (u ≠ root ∧ parent u = v)

/-- The path from the root to a node of a tree. -/
theorem IsTreeOn.exists_path {nodes : Set κ} {T : SimpleGraph κ} (hT : IsTreeOn nodes T)
    {root v : κ} (hroot : root ∈ nodes) (hv : v ∈ nodes) :
    ∃ p : T.Walk root v, p.IsPath ∧ p.length = T.dist root v :=
  (hT.reachable hroot hv).exists_path_of_dist

/-- In a tree the farther end of an edge has the nearer end as the last stop on
its path from the root. -/
theorem IsTreeOn.penultimate_eq {nodes : Set κ} {T : SimpleGraph κ} (hT : IsTreeOn nodes T)
    {root u v : κ} (hroot : root ∈ nodes) (hadj : T.Adj u v)
    (hdist : T.dist root v = T.dist root u + 1) (p : T.Walk root v) (hp : p.IsPath) :
    p.penultimate = u := by
  classical
  obtain ⟨q, hq, hqlen⟩ := hT.exists_path hroot (hT.mem_of_adj hadj)
  -- `v` is too far away to lie on the path to `u`
  have hv : v ∉ q.support := by
    intro hmem
    have hle : T.dist root v ≤ (q.takeUntil v hmem).length := dist_le _
    have hlen := q.length_takeUntil_le_length hmem
    omega
  have hu : u ∈ p.support :=
    hT.acyclic.mem_support_of_ne_mem_support_of_adj_of_isPath hp hq hadj.symm hv
  exact (hT.acyclic.eq_penultimate_of_adj_end hp hadj.symm hu).symm

/-- Every tree can be rooted at any of its nodes. -/
theorem IsTreeOn.exists_rooting {nodes : Set κ} {T : SimpleGraph κ} (hT : IsTreeOn nodes T)
    {root : κ} (hroot : root ∈ nodes) : Nonempty (Rooting nodes T root) := by
  classical
  have hpath : ∀ v : κ, ∃ w : κ, ∀ hv : v ∈ nodes,
      ∃ p : T.Walk root v, p.IsPath ∧ p.length = T.dist root v ∧ w = p.penultimate := by
    intro v
    by_cases hv : v ∈ nodes
    · obtain ⟨p, hp, hlen⟩ := hT.exists_path hroot hv
      exact ⟨p.penultimate, fun _ => ⟨p, hp, hlen, rfl⟩⟩
    · exact ⟨v, fun h => absurd h hv⟩
  choose parent hparent using hpath
  have hnil : ∀ {v} (p : T.Walk root v), v ≠ root → ¬p.Nil := fun p hne hp => hne hp.eq.symm
  have hclose : ∀ {v}, v ∈ nodes → v ≠ root →
      T.Adj v (parent v) ∧ T.dist root v = T.dist root (parent v) + 1 := by
    intro v hv hne
    obtain ⟨p, hp, hlen, hpen⟩ := hparent v hv
    have hadj : T.Adj (parent v) v := hpen ▸ p.adj_penultimate (hnil p hne)
    refine ⟨hadj.symm, ?_⟩
    have hdrop : T.dist root (parent v) ≤ p.dropLast.length := by
      rw [hpen]
      exact dist_le _
    have hlast : p.dropLast.length + 1 = p.length := p.length_dropLast_add_one (hnil p hne)
    have hreach : T.Reachable root (parent v) := hT.reachable hroot (hT.mem_of_adj hadj)
    rcases hT.acyclic.dist_eq_dist_add_one_of_adj_of_reachable root hadj hreach with h | h <;>
      omega
  have hunique : ∀ {u v}, T.Adj u v → T.dist root v = T.dist root u + 1 →
      v ≠ root ∧ parent v = u := by
    intro u v hadj hdist
    obtain ⟨p, hp, -, hpen⟩ := hparent v (hT.mem_of_adj_right hadj)
    refine ⟨fun heq => ?_, ?_⟩
    · rw [heq, dist_self] at hdist
      omega
    · rw [hpen, hT.penultimate_eq hroot hadj hdist p hp]
  exact ⟨{
    parent := parent
    depth := T.dist root
    root_mem := hroot
    depth_root := dist_self
    adj_parent := fun hv hne => (hclose hv hne).1
    depth_parent := fun hv hne => (hclose hv hne).2
    parent_of_adj := fun {u v} hadj => by
      have hreach : T.Reachable root u := hT.reachable hroot (hT.mem_of_adj hadj)
      rcases hT.acyclic.dist_eq_dist_add_one_of_adj_of_reachable root hadj hreach with h | h
      · exact Or.inr (hunique hadj.symm h)
      · exact Or.inl (hunique hadj h) }⟩

namespace Rooting

variable {nodes : Set κ} {T : SimpleGraph κ} {root : κ}

/-- `v` is `w` or one of its ancestors. -/
inductive Below (R : Rooting nodes T root) (v : κ) : κ → Prop
  | refl : v ∈ nodes → Below R v v
  | step {w : κ} : w ∈ nodes → w ≠ root → Below R v (R.parent w) → Below R v w

variable (R : Rooting nodes T root)

/-- Only the root has the depth zero. -/
theorem depth_eq_zero_iff {v : κ} (hv : v ∈ nodes) : R.depth v = 0 ↔ v = root := by
  constructor
  · intro hdepth
    by_contra hne
    have hstep := R.depth_parent hv hne
    omega
  · rintro rfl
    exact R.depth_root

theorem Below.mem {R : Rooting nodes T root} {v w : κ} (h : R.Below v w) : w ∈ nodes := by
  cases h with
  | refl hv => exact hv
  | step hw _ _ => exact hw

theorem Below.mem_left {R : Rooting nodes T root} {v w : κ} (h : R.Below v w) : v ∈ nodes := by
  induction h with
  | refl hv => exact hv
  | step _ _ _ ih => exact ih

theorem Below.depth_le {R : Rooting nodes T root} {v w : κ} (h : R.Below v w) :
    R.depth v ≤ R.depth w := by
  induction h with
  | refl _ => exact le_rfl
  | step hw hne _ ih =>
      rw [R.depth_parent hw hne]
      omega

theorem Below.eq_of_depth_eq {R : Rooting nodes T root} {v w : κ} (h : R.Below v w)
    (hdepth : R.depth v = R.depth w) : v = w := by
  cases h with
  | refl _ => rfl
  | step hw hne h =>
      have hle := h.depth_le
      rw [R.depth_parent hw hne] at hdepth
      omega

/-- Only the root is above the root. -/
theorem Below.eq_root {R : Rooting nodes T root} {v : κ} (h : R.Below v root) : v = root := by
  have hle := h.depth_le
  rw [R.depth_root] at hle
  exact (R.depth_eq_zero_iff h.mem_left).mp (Nat.le_zero.mp hle)

/-- The ancestors of a node are comparable. -/
theorem Below.of_depth_le {R : Rooting nodes T root} {u v w : κ} (hu : R.Below u w)
    (hv : R.Below v w) (hdepth : R.depth u ≤ R.depth v) : R.Below u v := by
  induction hv with
  | refl _ => exact hu
  | step hw hne hv ih =>
      cases hu with
      | refl _ =>
          have hle := hv.depth_le
          have hstep := R.depth_parent hw hne
          omega
      | step _ _ hu => exact ih hu

theorem Below.trans {R : Rooting nodes T root} {u v w : κ} (huv : R.Below u v)
    (hvw : R.Below v w) : R.Below u w := by
  induction hvw with
  | refl _ => exact huv
  | step hw hne _ ih => exact Below.step hw hne ih

theorem Below.parent {R : Rooting nodes T root} {v w : κ} (h : R.Below v w) (hne : v ≠ w) :
    w ≠ root ∧ R.Below v (R.parent w) := by
  cases h with
  | refl _ => exact absurd rfl hne
  | step _ hw h => exact ⟨hw, h⟩

/-- What is below a child is strictly below the child's parent. -/
theorem Below.strict {R : Rooting nodes T root} {v c w : κ} (h : R.Below c w)
    (hroot : c ≠ root) (hparent : R.parent c = v) (hv : v ∈ nodes) : R.Below v w ∧ w ≠ v := by
  have hdepth := R.depth_parent h.mem_left hroot
  have hvc : R.Below v c := by
    apply Below.step h.mem_left hroot
    rw [hparent]
    exact Below.refl hv
  refine ⟨hvc.trans h, fun heq => ?_⟩
  have hle := h.depth_le
  rw [hparent] at hdepth
  rw [heq] at hle
  omega

/-- A parent is no child of its own child. -/
theorem not_child_of_parent {v c : κ} (hv : v ∈ nodes) (hc : c ∈ nodes) (hroot : v ≠ root)
    (hparent : R.parent v = c) : ¬(c ≠ root ∧ R.parent c = v) := by
  rintro ⟨hcroot, hcparent⟩
  have hdepth := R.depth_parent hv hroot
  have hdepth' := R.depth_parent hc hcroot
  rw [hparent] at hdepth
  rw [hcparent] at hdepth'
  omega

/-- Two children of one node have no common descendant. -/
theorem Below.eq_of_siblings {R : Rooting nodes T root} {c d w : κ} (hc : R.Below c w)
    (hd : R.Below d w) (hcroot : c ≠ root) (hdroot : d ≠ root)
    (hparent : R.parent c = R.parent d) : c = d := by
  have hdepth : R.depth c = R.depth d := by
    rw [R.depth_parent hc.mem_left hcroot, R.depth_parent hd.mem_left hdroot, hparent]
  exact (hc.of_depth_le hd hdepth.le).eq_of_depth_eq hdepth

/-- A node below `v` other than `v` is below a child of `v`. -/
theorem Below.exists_child {R : Rooting nodes T root} {v w : κ} (h : R.Below v w)
    (hne : v ≠ w) : ∃ c, c ≠ root ∧ R.parent c = v ∧ R.Below c w := by
  induction h with
  | refl _ => exact absurd rfl hne
  | @step w hw hroot h ih =>
      by_cases heq : v = R.parent w
      · exact ⟨w, hroot, heq.symm, Below.refl hw⟩
      · obtain ⟨c, hc, hparent, hbelow⟩ := ih heq
        exact ⟨c, hc, hparent, Below.step hw hroot hbelow⟩

theorem parent_mem (hT : IsTreeOn nodes T) {v : κ} (hv : v ∈ nodes) (hne : v ≠ root) :
    R.parent v ∈ nodes := hT.mem_of_adj_right (R.adj_parent hv hne)

theorem below_root (hT : IsTreeOn nodes T) {v : κ} (hv : v ∈ nodes) : R.Below root v := by
  induction hdepth : R.depth v generalizing v with
  | zero =>
      by_cases hne : v = root
      · subst hne
        exact Below.refl hv
      · have hstep := R.depth_parent hv hne
        omega
  | succ n ih =>
      by_cases hne : v = root
      · subst hne
        exact Below.refl hv
      · have hstep := R.depth_parent hv hne
        exact Below.step hv hne (ih (R.parent_mem hT hv hne) (by omega))

/-- A walk that leaves the subtree below `v` crosses the edge from `v` to its parent. -/
theorem mem_edges_of_not_below (hT : IsTreeOn nodes T) {v u w : κ} (p : T.Walk u w)
    (hu : R.Below v u) (hw : ¬R.Below v w) :
    v ≠ root ∧ s(v, R.parent v) ∈ p.edges := by
  induction p with
  | nil => exact absurd hu hw
  | @cons u x w hadj p ih =>
      by_cases hx : R.Below v x
      · exact ⟨(ih hx hw).1, List.mem_cons_of_mem _ (ih hx hw).2⟩
      · rcases R.parent_of_adj hadj with ⟨hxroot, hparent⟩ | ⟨huroot, hparent⟩
        · exact absurd (Below.step (hT.mem_of_adj_right hadj) hxroot (hparent ▸ hu)) hx
        · -- the step goes up, so it starts at `v` itself
          by_cases heq : v = u
          · subst heq
            refine ⟨huroot, ?_⟩
            rw [hparent, Walk.edges_cons]
            exact List.mem_cons_self ..
          · exact absurd (hparent ▸ (hu.parent heq).2) hx

/-- The path from `v` to a node outside its subtree starts with the edge to the parent. -/
theorem exists_path_via_parent (hT : IsTreeOn nodes T) {v w : κ} (hv : v ∈ nodes)
    (hw : w ∈ nodes) (hbelow : ¬R.Below v w) :
    v ≠ root ∧ ∃ p : T.Walk v w, p.IsPath ∧ s(v, R.parent v) ∈ p.edges := by
  obtain ⟨p, hp⟩ := (hT.reachable hv hw).exists_isPath
  have hedge := R.mem_edges_of_not_below hT p (Below.refl hv) hbelow
  exact ⟨hedge.1, p, hp, hedge.2⟩

/-- Under running intersection a node shares with the nodes outside its subtree
only what its parent contains. -/
theorem inter_subset_parent [DecidableEq ι] {C : κ → Finset ι} (hT : IsJunctionTree nodes C T)
    {v w : κ} (hv : v ∈ nodes) (hw : w ∈ nodes) (hbelow : ¬R.Below v w) :
    C v ∩ C w ⊆ C (R.parent v) := by
  obtain ⟨-, p, hp, hedge⟩ := R.exists_path_via_parent hT.toIsTreeOn hv hw hbelow
  exact hT.runningIntersection p hp _ (p.snd_mem_support_of_mem_edges hedge)

/-- In a tree on finitely many nodes the depth stays below their number. -/
theorem depth_lt (hT : IsTreeOn nodes T) {all : Finset κ} (hall : ∀ v ∈ nodes, v ∈ all)
    {v : κ} (hv : v ∈ nodes) : R.depth v < all.card := by
  classical
  -- the ancestors of `v` have the depths `0, …, depth v`
  have hancestors : ∃ A : Finset κ, A ⊆ all ∧ A.card = R.depth v + 1 ∧
      ∀ a ∈ A, R.depth a ≤ R.depth v := by
    induction hdepth : R.depth v generalizing v with
    | zero =>
        refine ⟨{v}, by simpa using hall v hv, Finset.card_singleton v, fun a ha => ?_⟩
        rw [Finset.mem_singleton.mp ha, hdepth]
    | succ n ih =>
        have hne : v ≠ root := fun heq => by
          have hzero := (R.depth_eq_zero_iff hv).mpr heq
          omega
        have hstep := R.depth_parent hv hne
        obtain ⟨A, hA, hcard, hle⟩ := ih (R.parent_mem hT hv hne) (by omega)
        have hnot : v ∉ A := fun hmem => by
          have hvle := hle v hmem
          omega
        refine ⟨Insert.insert v A, Finset.insert_subset (hall v hv) hA, ?_, fun a ha => ?_⟩
        · rw [Finset.card_insert_of_notMem hnot, hcard]
        · rcases Finset.mem_insert.mp ha with rfl | ha
          · exact hdepth.le
          · exact (hle a ha).trans (Nat.le_succ n)
  obtain ⟨A, hA, hcard, -⟩ := hancestors
  have hle := Finset.card_le_card hA
  omega

/-! ## Post-orders -/

/-- `l` lists the nodes below `v`, nobody after one of its ancestors. -/
structure IsPostOrder (R : Rooting nodes T root) (v : κ) (l : List κ) : Prop where
  mem_iff : ∀ w, w ∈ l ↔ R.Below v w
  pairwise : l.Pairwise fun w w' => ¬R.Below w w'

/-- Post-orders of the subtrees of some children of `v`, one after the other. -/
structure IsForestOrder (R : Rooting nodes T root) (v : κ) (children : List κ) (l : List κ) :
    Prop where
  mem_iff : ∀ w, w ∈ l ↔ ∃ c ∈ children, c ≠ root ∧ R.parent c = v ∧ R.Below c w
  pairwise : l.Pairwise fun w w' => ¬R.Below w w'

theorem isForestOrder_nil (v : κ) : R.IsForestOrder v [] [] :=
  ⟨by simp, List.Pairwise.nil⟩

/-- A child that is not `v`'s child after all contributes nothing. -/
theorem IsForestOrder.concat_skip {R : Rooting nodes T root} {v c : κ} {children l : List κ}
    (h : R.IsForestOrder v children l) (hskip : ¬(c ≠ root ∧ R.parent c = v)) :
    R.IsForestOrder v (children ++ [c]) l := by
  refine ⟨fun w => ?_, h.pairwise⟩
  rw [h.mem_iff]
  constructor
  · rintro ⟨d, hd, hrest⟩
    exact ⟨d, List.mem_append_left _ hd, hrest⟩
  · rintro ⟨d, hd, hroot, hparent, hbelow⟩
    rcases List.mem_append.mp hd with hd | hd
    · exact ⟨d, hd, hroot, hparent, hbelow⟩
    · rw [List.mem_singleton] at hd
      exact absurd ⟨hd ▸ hroot, hd ▸ hparent⟩ hskip

theorem IsForestOrder.concat {R : Rooting nodes T root} {v c : κ} {children l l' : List κ}
    (h : R.IsForestOrder v children l) (hnew : c ∉ children) (hroot : c ≠ root)
    (hparent : R.parent c = v) (hc : R.IsPostOrder c l') :
    R.IsForestOrder v (children ++ [c]) (l ++ l') := by
  refine ⟨fun w => ?_, ?_⟩
  · rw [List.mem_append, h.mem_iff, hc.mem_iff]
    constructor
    · rintro (⟨d, hd, hrest⟩ | hbelow)
      · exact ⟨d, List.mem_append_left _ hd, hrest⟩
      · exact ⟨c, List.mem_append_right _ (List.mem_singleton_self c), hroot, hparent, hbelow⟩
    · rintro ⟨d, hd, hdroot, hdparent, hbelow⟩
      rcases List.mem_append.mp hd with hd | hd
      · exact Or.inl ⟨d, hd, hdroot, hdparent, hbelow⟩
      · rw [List.mem_singleton] at hd
        exact Or.inr (hd ▸ hbelow)
  · rw [List.pairwise_append]
    refine ⟨h.pairwise, hc.pairwise, fun w hw w' hw' hbelow => ?_⟩
    -- `w'` would be below two different children
    obtain ⟨d, hd, hdroot, hdparent, hdw⟩ := (h.mem_iff w).mp hw
    have heq := (hdw.trans hbelow).eq_of_siblings ((hc.mem_iff w').mp hw') hdroot hroot
      (hdparent.trans hparent.symm)
    exact hnew (heq ▸ hd)

/-- The subtrees of all children, and then the node itself. -/
theorem IsForestOrder.concat_self {R : Rooting nodes T root} {v : κ} {children l : List κ}
    (h : R.IsForestOrder v children l) (hv : v ∈ nodes)
    (hall : ∀ c, c ∈ nodes → c ≠ root → R.parent c = v → c ∈ children) :
    R.IsPostOrder v (l ++ [v]) := by
  refine ⟨fun w => ?_, ?_⟩
  · rw [List.mem_append, h.mem_iff, List.mem_singleton]
    constructor
    · rintro (⟨c, -, hroot, hparent, hbelow⟩ | rfl)
      · have hvc : R.Below v c := by
          refine Below.step hbelow.mem_left hroot ?_
          rw [hparent]
          exact Below.refl hv
        exact hvc.trans hbelow
      · exact Below.refl hv
    · intro hbelow
      by_cases heq : v = w
      · exact Or.inr heq.symm
      · obtain ⟨c, hroot, hparent, hc⟩ := hbelow.exists_child heq
        exact Or.inl ⟨c, hall c hc.mem_left hroot hparent, hroot, hparent, hc⟩
  · rw [List.pairwise_append]
    refine ⟨h.pairwise, List.pairwise_singleton _ _, fun w hw w' hw' hbelow => ?_⟩
    obtain ⟨c, -, hroot, hparent, hcw⟩ := (h.mem_iff w).mp hw
    rw [List.mem_singleton] at hw'
    subst hw'
    have hle := (hcw.trans hbelow).depth_le
    rw [R.depth_parent hcw.mem_left hroot, hparent] at hle
    omega

theorem IsPostOrder.nodup {R : Rooting nodes T root} {v : κ} {l : List κ}
    (h : R.IsPostOrder v l) : l.Nodup := by
  refine List.Pairwise.imp_of_mem (fun {w w'} hw _ hbelow => ?_) h.pairwise
  rintro rfl
  exact hbelow (Below.refl ((h.mem_iff w).mp hw).mem)

end Rooting

end JunctionBox.Hypertree
