import JunctionBox.Foundations.JointInvariant
import JunctionBox.Foundations.RootedTree

/-!
# Messages towards the root

In a rooted junction tree every clique sends one message to its parent.  If no
clique sends after one of its ancestors, these messages absorb everything into
the root (`absorbs_of_upward`): whatever the sender shares with a clique that
is still to send, or with the root, is in its parent and hence in the separator.
-/

namespace JunctionBox.Propagation

open Hypertree

variable {ι κ ε : Type*}
variable {nodes : Set κ} {T : SimpleGraph κ} {root : κ}

/-- A message of a clique to its parent; `ends` are the two ends of a separator. -/
structure Upward (R : Rooting nodes T root) (ends : ε → Sym2 κ) (m : Message κ ε) : Prop where
  sender : m.sender ∈ nodes
  ne_root : m.sender ≠ root
  receiver : m.receiver = R.parent m.sender
  ends : ends m.sep = s(m.sender, m.receiver)

variable {R : Rooting nodes T root} {ends : ε → Sym2 κ} {m m' : Message κ ε}

theorem Upward.depth (h : Upward R ends m) : R.depth m.sender = R.depth m.receiver + 1 := by
  rw [h.receiver]
  exact R.depth_parent h.sender h.ne_root

theorem Upward.ne (h : Upward R ends m) : m.sender ≠ m.receiver := by
  intro heq
  have hdepth := h.depth
  rw [← heq] at hdepth
  omega

/-- A separator carries the message of one clique only. -/
theorem Upward.sender_eq (h : Upward R ends m) (h' : Upward R ends m') (hsep : m.sep = m'.sep) :
    m.sender = m'.sender := by
  have hends := h.ends
  rw [hsep, h'.ends, Sym2.eq_iff] at hends
  rcases hends with ⟨heq, -⟩ | ⟨hsender, hreceiver⟩
  · exact heq.symm
  · have hdepth := h.depth
    have hdepth' := h'.depth
    rw [hsender, hreceiver] at hdepth'
    omega

theorem Upward.below (h : Upward R ends m) (hreceiver : m.receiver ∈ nodes) :
    R.Below m.receiver m.sender := by
  apply Rooting.Below.step h.sender h.ne_root
  rw [← h.receiver]
  exact Rooting.Below.refl hreceiver

/-- **Absorption along a rooted tree.** -/
theorem absorbs_of_upward [DecidableEq ι] [DecidableEq κ] [DecidableEq ε] {C : κ → Finset ι}
    {S : ε → Finset ι} (hT : IsJunctionTree nodes C T)
    {ms : List (Message κ ε)} (hup : ∀ m ∈ ms, Upward R ends m)
    (hS : ∀ m ∈ ms, S m.sep = C m.sender ∩ C m.receiver)
    (hpair : (ms.map Message.sender).Pairwise fun w w' => ¬R.Below w w') {A : Finset κ}
    (hA : ∀ k, k ∈ A ↔ k = root ∨ k ∈ ms.map Message.sender)
    (hclosed : ∀ m ∈ ms, m.receiver ∈ A) : Absorbs C S A ms {root} := by
  induction ms generalizing A with
  | nil =>
      have hroot : A = {root} := by
        ext k
        rw [hA, Finset.mem_singleton]
        simp
      rw [hroot]
      exact Absorbs.nil _
  | cons m ms ih =>
      rw [List.map_cons, List.pairwise_cons] at hpair
      have hm := hup m (List.mem_cons_self ..)
      have hSm := hS m (List.mem_cons_self ..)
      have hrest : ∀ m' ∈ ms, Upward R ends m' := fun m' hm' => hup m' (List.mem_cons_of_mem _ hm')
      have hnot : m.sender ∉ ms.map Message.sender := fun hmem =>
        hpair.1 _ hmem (Rooting.Below.refl hm.sender)
      -- the cliques that are left are not below the sender
      have hbelow : ∀ k ∈ A, k ≠ m.sender → k ∈ nodes ∧ ¬R.Below m.sender k := by
        intro k hk hne
        rcases (hA k).mp hk with rfl | hk
        · exact ⟨R.root_mem, fun hbelow => hm.ne_root hbelow.eq_root⟩
        · rw [List.map_cons, List.mem_cons] at hk
          have hk' := hk.resolve_left hne
          obtain ⟨m', hm', rfl⟩ := List.mem_map.mp hk'
          exact ⟨(hrest m' hm').sender, hpair.1 _ hk'⟩
      have hshare : ∀ k ∈ A, k ≠ m.sender → C m.sender ∩ C k ⊆ S m.sep := by
        intro k hk hne
        obtain ⟨hknode, hnotBelow⟩ := hbelow k hk hne
        rw [hSm, hm.receiver]
        exact Finset.subset_inter Finset.inter_subset_left
          (R.inter_subset_parent hT hm.sender hknode hnotBelow)
      have hsender : m.sender ∈ A := (hA _).mpr (Or.inr (List.mem_cons_self ..))
      have hfits : Fits C S m := by
        refine ⟨hm.ne, ?_, ?_⟩ <;> rw [hSm]
        · exact Finset.inter_subset_left
        · exact Finset.inter_subset_right
      apply Absorbs.cons hsender (hclosed m (List.mem_cons_self ..)) hfits hshare
      · intro m' hm' heq
        exact hnot ((hrest m' hm').sender_eq hm heq ▸ List.mem_map_of_mem hm')
      · apply ih hrest (fun m' hm' => hS m' (List.mem_cons_of_mem _ hm')) hpair.2
        · intro k
          rw [Finset.mem_erase, hA, List.map_cons, List.mem_cons]
          constructor
          · rintro ⟨hne, hroot | heq | hk⟩
            · exact Or.inl hroot
            · exact absurd heq hne
            · exact Or.inr hk
          · rintro (rfl | hk)
            · exact ⟨hm.ne_root.symm, Or.inl rfl⟩
            · exact ⟨fun heq => hnot (heq ▸ hk), Or.inr (Or.inr hk)⟩
        · intro m' hm'
          have hreceiver := hclosed m' (List.mem_cons_of_mem _ hm')
          refine Finset.mem_erase.mpr ⟨fun heq => ?_, hreceiver⟩
          -- a later clique is not a child of the sender
          refine hpair.1 _ (List.mem_map_of_mem hm') ?_
          rw [← heq]
          exact (hrest m' hm').below (heq ▸ hm.sender)

end JunctionBox.Propagation
