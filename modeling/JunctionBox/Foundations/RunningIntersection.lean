import JunctionBox.Foundations.RootedTree
import Mathlib.Data.List.Sort

/-!
# Running intersection orderings

A list of sets, newest first, is a running intersection ordering when every set
meets all earlier ones inside a single earlier one.  A family that can be so
arranged is also called acyclic.

* `HasRIOrder.cons_of_subset`, `HasRIOrder.of_cons`: sets contained in other
  sets of the family come and go freely;
* `exists_junctionTree`: a family of distinct sets with such an ordering has a
  junction tree;
* `IsJunctionTree.hasRIOrder`: and the sets of a junction tree have such an
  ordering.
-/

namespace JunctionBox.Hypertree

variable {κ ι : Type*} [DecidableEq ι]

/-- Every set meets the earlier ones inside one of them; the newest set is first. -/
def RIOrder : List (Finset ι) → Prop
  | [] => True
  | A :: L => (L = [] ∨ ∃ B ∈ L, ∀ D ∈ L, A ∩ D ⊆ B) ∧ RIOrder L

/-- Some arrangement of the family is a running intersection ordering. -/
def HasRIOrder (L : List (Finset ι)) : Prop := ∃ L', L'.Perm L ∧ RIOrder L'

instance RIOrder.decidable : (L : List (Finset ι)) → Decidable (RIOrder L)
  | [] => isTrue trivial
  | A :: L =>
      haveI := RIOrder.decidable L
      inferInstanceAs (Decidable ((L = [] ∨ ∃ B ∈ L, ∀ D ∈ L, A ∩ D ⊆ B) ∧ RIOrder L))

instance (L : List (Finset ι)) : Decidable (HasRIOrder L) :=
  decidable_of_iff (∃ L' ∈ L.permutations', RIOrder L') <| by
    simp only [HasRIOrder, List.mem_permutations']

theorem HasRIOrder.perm {L L' : List (Finset ι)} (h : HasRIOrder L) (hperm : L.Perm L') :
    HasRIOrder L' := by
  obtain ⟨O, hO, hri⟩ := h
  exact ⟨O, hO.trans hperm, hri⟩

theorem HasRIOrder.cons_of_subset {L : List (Finset ι)} (h : HasRIOrder L) {A B : Finset ι}
    (hB : B ∈ L) (hAB : A ⊆ B) : HasRIOrder (A :: L) := by
  obtain ⟨O, hO, hri⟩ := h
  refine ⟨A :: O, hO.cons A, Or.inr ⟨B, hO.mem_iff.mpr hB, fun D _ => ?_⟩, hri⟩
  exact Finset.inter_subset_left.trans hAB

/-- A set may grow by elements that no other set has. -/
theorem RIOrder.replace {A D : Finset ι} (hAD : A ⊆ D) :
    ∀ {l₁ l₂ : List (Finset ι)}, RIOrder (l₁ ++ A :: l₂) →
      (∀ E ∈ l₁ ++ l₂, D ∩ E ⊆ A) → RIOrder (l₁ ++ D :: l₂) := by
  intro l₁
  induction l₁ with
  | nil =>
      rintro l₂ ⟨hA, hl₂⟩ hown
      refine ⟨?_, hl₂⟩
      rcases hA with rfl | ⟨B, hB, hAB⟩
      · exact Or.inl rfl
      · refine Or.inr ⟨B, hB, fun E hE i hi => hAB E hE ?_⟩
        exact Finset.mem_inter.mpr ⟨hown E hE hi, (Finset.mem_inter.mp hi).2⟩
  | cons F l₁ ih =>
      rintro l₂ ⟨hF, hrest⟩ hown
      refine ⟨Or.inr ?_, ih hrest fun E hE => hown E (List.mem_cons_of_mem _ hE)⟩
      rcases hF with hnil | ⟨W, hW, hFW⟩
      · simp at hnil
      -- what `F` shares with `D` is in `A` already
      have hmeet : ∀ E ∈ l₁ ++ D :: l₂, F ∩ E ⊆ W := by
        intro E hE
        rcases List.mem_append.mp hE with hE | hE
        · exact hFW E (List.mem_append_left _ hE)
        · rcases List.mem_cons.mp hE with rfl | hE
          · intro i hi
            rw [Finset.mem_inter] at hi
            have hiA : i ∈ A :=
              hown F (List.mem_cons_self ..) (Finset.mem_inter.mpr ⟨hi.2, hi.1⟩)
            exact hFW A (by simp) (Finset.mem_inter.mpr ⟨hi.1, hiA⟩)
          · exact hFW E (by simp [hE])
      rcases List.mem_append.mp hW with hW | hW
      · exact ⟨W, List.mem_append_left _ hW, hmeet⟩
      · rcases List.mem_cons.mp hW with rfl | hW
        · exact ⟨D, by simp, fun E hE => (hmeet E hE).trans hAD⟩
        · exact ⟨W, by simp [hW], hmeet⟩

theorem RIOrder.remove {A : Finset ι} :
    ∀ {l₁ l₂ : List (Finset ι)}, RIOrder (l₁ ++ A :: l₂) → (∃ B ∈ l₁ ++ l₂, A ⊆ B) →
      HasRIOrder (l₁ ++ l₂) := by
  intro l₁
  induction l₁ with
  | nil => exact fun {l₂} h _ => ⟨l₂, List.Perm.refl _, h.2⟩
  | cons D l₁ ih =>
      rintro l₂ ⟨hD, hrest⟩ ⟨B, hB, hAB⟩
      rcases hD with hnil | ⟨W, hW, hDW⟩
      · simp at hnil
      by_cases hother : ∃ B ∈ l₁ ++ l₂, A ⊆ B
      · obtain ⟨O, hO, hri⟩ := ih hrest hother
        obtain ⟨B', hB', hAB'⟩ := hother
        have hwitness : ∃ W' ∈ l₁ ++ l₂, W ⊆ W' := by
          rcases List.mem_append.mp hW with hW | hW
          · exact ⟨W, List.mem_append_left _ hW, Finset.Subset.refl W⟩
          · rcases List.mem_cons.mp hW with rfl | hW
            · exact ⟨B', hB', hAB'⟩
            · exact ⟨W, List.mem_append_right _ hW, Finset.Subset.refl W⟩
        obtain ⟨W', hW', hWW'⟩ := hwitness
        refine ⟨D :: O, hO.cons D, Or.inr ⟨W', hO.mem_iff.mpr hW', fun E hE => ?_⟩, hri⟩
        have hE' : E ∈ l₁ ++ A :: l₂ := by
          rcases List.mem_append.mp (hO.mem_iff.mp hE) with hE | hE <;> simp [hE]
        exact (hDW E hE').trans hWW'
      · -- only `D` contains `A`, so `D` meets the earlier sets in `A` and can take its place
        have hAD : A ⊆ D := by
          rcases List.mem_cons.mp hB with rfl | hB
          · exact hAB
          · exact absurd ⟨B, hB, hAB⟩ hother
        have hAW : A ⊆ W := by
          have hmeet := hDW A (by simp)
          rwa [Finset.inter_eq_right.mpr hAD] at hmeet
        have hW' : W = A := by
          by_contra hne
          refine hother ⟨W, ?_, hAW⟩
          rcases List.mem_append.mp hW with hW | hW
          · exact List.mem_append_left _ hW
          · exact List.mem_append_right _ ((List.mem_cons.mp hW).resolve_left hne)
        subst hW'
        refine ⟨l₁ ++ D :: l₂, List.perm_middle, hrest.replace hAD fun E hE => hDW E ?_⟩
        rcases List.mem_append.mp hE with hE | hE <;> simp [hE]

theorem HasRIOrder.of_cons {L : List (Finset ι)} {A B : Finset ι} (h : HasRIOrder (A :: L))
    (hB : B ∈ L) (hAB : A ⊆ B) : HasRIOrder L := by
  obtain ⟨O, hO, hri⟩ := h
  obtain ⟨l₁, l₂, rfl⟩ := List.append_of_mem (hO.mem_iff.mpr (List.mem_cons_self ..))
  have hperm : (l₁ ++ l₂).Perm L := (List.perm_middle.symm.trans hO).cons_inv
  exact (hri.remove ⟨B, hperm.mem_iff.mpr hB, hAB⟩).perm hperm

/-- Families with the same largest sets are acyclic together: `M` covers `L` and is part
of it. -/
theorem hasRIOrder_append_iff {M L : List (Finset ι)} (hcover : ∀ A ∈ L, ∃ B ∈ M, A ⊆ B) :
    HasRIOrder (L ++ M) ↔ HasRIOrder M := by
  induction L with
  | nil => exact Iff.rfl
  | cons A L ih =>
      obtain ⟨B, hB, hAB⟩ := hcover A (List.mem_cons_self ..)
      rw [← ih fun A' hA' => hcover A' (List.mem_cons_of_mem _ hA')]
      have hB' : B ∈ L ++ M := List.mem_append_right _ hB
      exact ⟨fun h => h.of_cons hB' hAB, fun h => h.cons_of_subset hB' hAB⟩

/-! ## Orderings and trees -/

/-- Distinct sets in a running intersection ordering form a junction tree. -/
theorem exists_junctionTree {L : List (Finset ι)} (hne : L ≠ []) (hnodup : L.Nodup)
    (h : RIOrder L) :
    ∃ T : SimpleGraph (Finset ι), IsJunctionTree {A | A ∈ L} id T := by
  induction L with
  | nil => exact absurd rfl hne
  | cons A L ih =>
      rw [List.nodup_cons] at hnodup
      rcases h with ⟨rfl | ⟨B, hB, hAB⟩, hL⟩
      · refine ⟨⊥, ?_⟩
        have hset : {D | D ∈ [A]} = {A} := by ext D; simp
        rw [hset]
        exact isJunctionTree_singleton id A
      · obtain ⟨T, hT⟩ := ih (List.ne_nil_of_mem hB) hnodup.2 hL
        have hset : {D | D ∈ A :: L} = insert A {D | D ∈ L} := by ext D; simp
        refine ⟨T ⊔ SimpleGraph.edge A B, ?_⟩
        rw [hset]
        exact hT.insert hnodup.1 hB hAB

/-- Nodes listed from the deepest up to the root give a running intersection ordering. -/
theorem Rooting.riOrder {nodes : Set κ} {T : SimpleGraph κ} {root : κ}
    (R : Rooting nodes T root) {C : κ → Finset ι} (hT : IsJunctionTree nodes C T) {L : List κ}
    (hnodup : L.Nodup) (hmem : ∀ v ∈ L, v ∈ nodes)
    (hsorted : L.Pairwise fun v w => R.depth w ≤ R.depth v)
    (hclosed : ∀ v ∈ L, v ≠ root → R.parent v ∈ L) : RIOrder (L.map C) := by
  induction L with
  | nil => trivial
  | cons v L ih =>
      rw [List.nodup_cons] at hnodup
      rw [List.pairwise_cons] at hsorted
      have hv : v ∈ nodes := hmem v (List.mem_cons_self ..)
      have hL : ∀ w ∈ L, w ∈ nodes := fun w hw => hmem w (List.mem_cons_of_mem _ hw)
      have hclosed' : ∀ w ∈ L, w ≠ root → R.parent w ∈ L := by
        intro w hw hne
        have hparent := hclosed w (List.mem_cons_of_mem _ hw) hne
        refine (List.mem_cons.mp hparent).resolve_left fun heq => ?_
        have hle := hsorted.1 w hw
        have hstep := R.depth_parent (hL w hw) hne
        rw [heq] at hstep
        omega
      refine ⟨?_, ih hnodup.2 hL hsorted.2 hclosed'⟩
      by_cases hroot : v = root
      · -- the root comes first of all
        refine Or.inl ?_
        rw [List.map_eq_nil_iff, List.eq_nil_iff_forall_not_mem]
        intro w hw
        have hle := hsorted.1 w hw
        rw [hroot, R.depth_root] at hle
        have hw' : w = root := (R.depth_eq_zero_iff (hL w hw)).mp (Nat.le_zero.mp hle)
        exact hnodup.1 (hroot ▸ hw' ▸ hw)
      · have hparent : R.parent v ∈ L := by
          refine (List.mem_cons.mp (hclosed v (List.mem_cons_self ..) hroot)).resolve_left
            fun heq => ?_
          have hstep := R.depth_parent hv hroot
          rw [heq] at hstep
          omega
        refine Or.inr ⟨C (R.parent v), List.mem_map_of_mem hparent, fun D hD => ?_⟩
        obtain ⟨w, hw, rfl⟩ := List.mem_map.mp hD
        refine R.inter_subset_parent hT hv (hL w hw) fun hbelow => hnodup.1 ?_
        have heq := hbelow.eq_of_depth_eq (le_antisymm hbelow.depth_le (hsorted.1 w hw))
        exact heq ▸ hw

/-- The sets of a junction tree are acyclic. -/
theorem IsJunctionTree.hasRIOrder {nodes : Set κ} {C : κ → Finset ι} {T : SimpleGraph κ}
    (hT : IsJunctionTree nodes C T) {L : List κ} (hnodup : L.Nodup)
    (hL : ∀ v, v ∈ L ↔ v ∈ nodes) : HasRIOrder (L.map C) := by
  rcases L with _ | ⟨root, rest⟩
  · exact ⟨[], List.Perm.refl _, trivial⟩
  set L := root :: rest
  have hroot : root ∈ nodes := (hL root).mp (List.mem_cons_self ..)
  obtain ⟨R⟩ := hT.exists_rooting hroot
  set deeper : κ → κ → Prop := fun v w => R.depth w ≤ R.depth v
  have : DecidableRel deeper := fun v w => inferInstanceAs (Decidable (_ ≤ _))
  have : Std.Total deeper := ⟨fun v w => Nat.le_total _ _⟩
  have : IsTrans κ deeper := ⟨fun u v w huv hvw => Nat.le_trans hvw huv⟩
  have hperm := List.perm_insertionSort deeper L
  refine ⟨(L.insertionSort deeper).map C, hperm.map C, ?_⟩
  refine R.riOrder hT (hperm.nodup_iff.mpr hnodup) (fun v hv => (hL v).mp (hperm.mem_iff.mp hv))
    (List.pairwise_insertionSort deeper L) fun v hv hne => ?_
  exact hperm.mem_iff.mpr ((hL _).mpr
    (R.parent_mem hT.toIsTreeOn ((hL v).mp (hperm.mem_iff.mp hv)) hne))

end JunctionBox.Hypertree
