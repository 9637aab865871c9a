import JunctionBox.Foundations.UpwardMessages

/-!
# Collection schedules

A schedule collects to `root` when every separator carries one message, from its
farther end to its nearer end, and nobody sends before its whole subtree has
sent (`CollectsTo`).  This is said with distances and walks, so that it makes
sense in any graph.

In a rooted tree the distance from the root is the depth (`Rooting.dist_eq`), the
subtrees are those of `Below` (`Rooting.below_iff`), and upward messages whose
senders are in post-order collect to the root (`collectsTo_of_postOrder`).
Conversely a schedule can only collect over separators that hang together with
the root (`CollectsTo.reachable`).
-/

namespace JunctionBox

open Hypertree SimpleGraph

variable {κ ε : Type*}

/-- `w` is in the subtree of `v`: every way from `w` to the root passes `v`. -/
def InSubtree (T : SimpleGraph κ) (root v w : κ) : Prop :=
  ∀ p : T.Walk w root, v ∈ p.support

namespace Hypertree.Rooting

variable {nodes : Set κ} {T : SimpleGraph κ} {root : κ} (R : Rooting nodes T root)

/-- A step changes the depth by one. -/
theorem depth_le_of_adj (hT : IsTreeOn nodes T) {u v : κ} (hadj : T.Adj u v) :
    R.depth v ≤ R.depth u + 1 := by
  rcases R.parent_of_adj hadj with ⟨hroot, hparent⟩ | ⟨hroot, hparent⟩
  · rw [R.depth_parent (hT.mem_of_adj_right hadj) hroot, hparent]
  · have hdepth := R.depth_parent (hT.mem_of_adj hadj) hroot
    rw [hparent] at hdepth
    omega

theorem depth_le_length (hT : IsTreeOn nodes T) {u v : κ} (p : T.Walk u v) :
    R.depth v ≤ R.depth u + p.length := by
  induction p with
  | nil => exact Nat.le_refl _
  | cons hadj p ih =>
      have hstep := R.depth_le_of_adj hT hadj
      rw [Walk.length_cons]
      omega

/-- The way up to the root, over the ancestors. -/
theorem exists_walk_up (hT : IsTreeOn nodes T) {v : κ} (hv : v ∈ nodes) :
    ∃ p : T.Walk v root, p.length = R.depth v ∧ ∀ u ∈ p.support, R.Below u v := by
  induction hdepth : R.depth v generalizing v with
  | zero =>
      obtain rfl := (R.depth_eq_zero_iff hv).mp hdepth
      refine ⟨Walk.nil, rfl, fun u hu => ?_⟩
      rw [Walk.support_nil, List.mem_singleton] at hu
      rw [hu]
      exact Below.refl hv
  | succ n ih =>
      have hne : v ≠ root := fun heq => by
        have hzero := (R.depth_eq_zero_iff hv).mpr heq
        omega
      have hstep := R.depth_parent hv hne
      obtain ⟨p, hlength, hbelow⟩ := ih (R.parent_mem hT hv hne) (by omega)
      refine ⟨Walk.cons (R.adj_parent hv hne) p, by rw [Walk.length_cons, hlength], ?_⟩
      intro u hu
      rw [Walk.support_cons, List.mem_cons] at hu
      rcases hu with rfl | hu
      · exact Below.refl hv
      · exact Below.step hv hne (hbelow u hu)

/-- The depth is the distance from the root. -/
theorem dist_eq (hT : IsTreeOn nodes T) {v : κ} (hv : v ∈ nodes) : T.dist root v = R.depth v := by
  apply Nat.le_antisymm
  · obtain ⟨p, hlength, -⟩ := R.exists_walk_up hT hv
    rw [← hlength, ← p.length_reverse]
    exact dist_le p.reverse
  · obtain ⟨p, -, hlength⟩ := hT.exists_path R.root_mem hv
    have hle := R.depth_le_length hT p
    rw [R.depth_root, hlength] at hle
    omega

/-- The nodes below `v` are those in its subtree. -/
theorem below_iff (hT : IsTreeOn nodes T) {v w : κ} (hw : w ∈ nodes) :
    R.Below v w ↔ InSubtree T root v w := by
  constructor
  · intro hbelow p
    by_cases hroot : R.Below v root
    · exact hroot.eq_root ▸ p.end_mem_support
    · exact p.fst_mem_support_of_mem_edges (R.mem_edges_of_not_below hT p hbelow hroot).2
  · intro hsub
    obtain ⟨p, -, hbelow⟩ := R.exists_walk_up hT hw
    exact hbelow v (hsub p)

end Hypertree.Rooting

namespace Propagation

variable {nodes : Set κ} {T : SimpleGraph κ} {root : κ} {ends : ε → Sym2 κ}

/-- The messages `ms` collect to `root` over the separators `seps`: one message for every
separator, along it, from the end that is farther from the root to the nearer one, and after all
messages over separators in the subtree of the sender. -/
structure CollectsTo (T : SimpleGraph κ) (ends : ε → Sym2 κ) (seps : List ε) (root : κ)
    (ms : List (Message κ ε)) : Prop where
  once : (ms.map Message.sep).Perm seps
  ends_eq : ∀ m ∈ ms, ends m.sep = s(m.sender, m.receiver)
  inward : ∀ m ∈ ms, T.dist root m.sender = T.dist root m.receiver + 1
  subtree_first : ∀ before m after, ms = before ++ m :: after →
    ∀ e ∈ seps, (∀ v ∈ ends e, InSubtree T root m.sender v) → ∃ m' ∈ before, m'.sep = e

variable {seps : List ε} {ms : List (Message κ ε)}

/-- Only what hangs together with the root is collected. -/
theorem CollectsTo.reachable (h : CollectsTo T ends seps root ms)
    (hadj : ∀ e ∈ seps, ∀ u v, ends e = s(u, v) → u ≠ v → T.Adj u v) :
    ∀ e ∈ seps, ∀ v ∈ ends e, T.Reachable root v := by
  intro e he v hv
  obtain ⟨m, hm, rfl⟩ := List.mem_map.mp (h.once.mem_iff.mpr he)
  have hinward := h.inward m hm
  have hsender : T.Reachable root m.sender := by
    by_contra hnot
    rw [dist_eq_zero_of_not_reachable hnot] at hinward
    omega
  have hne : m.sender ≠ m.receiver := by
    intro heq
    rw [heq] at hinward
    omega
  rw [h.ends_eq m hm, Sym2.mem_iff] at hv
  rcases hv with rfl | rfl
  · exact hsender
  · exact hsender.trans (hadj _ he _ _ (h.ends_eq m hm) hne).reachable

section PostOrder

variable {R : Rooting nodes T root}

/-- The lower end of a separator sends over it. -/
theorem exists_mem_of_sep (hT : IsTreeOn nodes T) (hup : ∀ m ∈ ms, Upward R ends m)
    (horder : R.IsPostOrder root (ms.map Message.sender ++ [root])) (hseps : ∀ m ∈ ms, m.sep ∈ seps)
    (hinj : ∀ e ∈ seps, ∀ e' ∈ seps, ends e = ends e' → e = e') {e : ε} (he : e ∈ seps) {u v : κ}
    (hends : ends e = s(u, v)) (huv : T.Adj u v) : ∃ m ∈ ms, m.sep = e := by
  obtain ⟨c, hc, hroot, hparent⟩ : ∃ c ∈ nodes, c ≠ root ∧ s(c, R.parent c) = ends e := by
    rcases R.parent_of_adj huv with ⟨hroot, hparent⟩ | ⟨hroot, hparent⟩
    · exact ⟨v, hT.mem_of_adj_right huv, hroot, by rw [hends, hparent, Sym2.eq_swap]⟩
    · exact ⟨u, hT.mem_of_adj huv, hroot, by rw [hends, hparent]⟩
  have hmem := (horder.mem_iff c).mpr (R.below_root hT hc)
  rw [List.mem_append, List.mem_singleton, or_iff_left hroot] at hmem
  obtain ⟨m, hm, rfl⟩ := List.mem_map.mp hmem
  refine ⟨m, hm, hinj _ (hseps m hm) _ he ?_⟩
  rw [(hup m hm).ends, (hup m hm).receiver, hparent]

/-- In post-order nobody below a sender comes after it. -/
theorem mem_before_of_below {m m' : Message κ ε} {before after : List (Message κ ε)}
    (horder : R.IsPostOrder root (ms.map Message.sender ++ [root]))
    (hsplit : ms = before ++ m :: after) (hm' : m' ∈ ms) (hne : m' ≠ m)
    (hbelow : R.Below m.sender m'.sender) : m' ∈ before := by
  rcases List.mem_append.mp (hsplit ▸ hm') with hbefore | hlater
  · exact hbefore
  · have hafter : m' ∈ after := (List.mem_cons.mp hlater).resolve_left hne
    have hpair := horder.pairwise
    rw [hsplit, List.map_append, List.map_cons, List.append_assoc, List.pairwise_append] at hpair
    have hlast := (List.pairwise_cons.mp hpair.2.1).1 m'.sender
      (List.mem_append_left _ (List.mem_map_of_mem hafter))
    exact absurd hbelow hlast

/-- **Upward messages in post-order collect to the root.** -/
theorem collectsTo_of_postOrder (hT : IsTreeOn nodes T) (hup : ∀ m ∈ ms, Upward R ends m)
    (horder : R.IsPostOrder root (ms.map Message.sender ++ [root]))
    (hnodup : seps.Nodup) (hseps : ∀ m ∈ ms, m.sep ∈ seps)
    (hinj : ∀ e ∈ seps, ∀ e' ∈ seps, ends e = ends e' → e = e')
    (hadj : ∀ e ∈ seps, ∃ u v, ends e = s(u, v) ∧ T.Adj u v) :
    CollectsTo T ends seps root ms := by
  have hreceiver : ∀ m ∈ ms, m.receiver ∈ nodes := fun m hm => by
    rw [(hup m hm).receiver]
    exact R.parent_mem hT (hup m hm).sender (hup m hm).ne_root
  have hcarries : ∀ e ∈ seps, ∃ m ∈ ms, m.sep = e := fun e he => by
    obtain ⟨u, v, hends, huv⟩ := hadj e he
    exact exists_mem_of_sep hT hup horder hseps hinj he hends huv
  have hsenders : (ms.map Message.sender).Nodup := (List.nodup_append.mp horder.nodup).1
  have hseparators : (ms.map Message.sep).Nodup := by
    rw [List.Nodup, List.pairwise_map] at hsenders ⊢
    exact hsenders.imp_of_mem fun hm hm' hne heq =>
      hne ((hup _ hm).sender_eq (hup _ hm') heq)
  refine ⟨?_, fun m hm => (hup m hm).ends, fun m hm => ?_,
    fun before m after hsplit e he hsub => ?_⟩
  · rw [List.perm_ext_iff_of_nodup hseparators hnodup]
    intro e
    rw [List.mem_map]
    constructor
    · rintro ⟨m, hm, rfl⟩
      exact hseps m hm
    · exact hcarries e
  · rw [R.dist_eq hT (hup m hm).sender, R.dist_eq hT (hreceiver m hm)]
    exact (hup m hm).depth
  · obtain ⟨m', hm', rfl⟩ := hcarries e he
    have hends := (hup m' hm').ends
    have hsender : R.Below m.sender m'.sender :=
      (R.below_iff hT (hup m' hm').sender).mpr (hsub _ (hends ▸ Sym2.mem_mk_left ..))
    have hreceives : R.Below m.sender m'.receiver :=
      (R.below_iff hT (hreceiver m' hm')).mpr (hsub _ (hends ▸ Sym2.mem_mk_right ..))
    refine ⟨m', mem_before_of_below horder hsplit hm' ?_ hsender, rfl⟩
    -- a receiver is above its sender, so not in the sender's subtree
    rintro rfl
    have hle := hreceives.depth_le
    have hdepth := (hup m' hm').depth
    omega

end PostOrder

end Propagation

end JunctionBox
