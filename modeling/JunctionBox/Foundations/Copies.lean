import JunctionBox.Foundations.Hearing

/-!
# Trees without running intersection

A tree whose nodes carry finite sets need not have the running intersection
property: the nodes that contain an element may fall apart.  Give each part of
them a copy of the element of its own.  Renamed so, the sets have running
intersection (`isJunctionTree_copies`), and adjacent nodes share no less than
before (`copyAt_eq_of_adj`).

Messages never notice: passing them between the factors and passing them between
the renamed factors are the same (`Renamed.passAll`).  What a clique of a junction
tree learns is thus what a clique of any tree learns about the renamed factors
(`copies_of_hasHeard`).
-/

namespace JunctionBox.Hypertree

open SimpleGraph

variable {κ ι : Type*} {nodes : Set κ} {C : κ → Finset ι} {T : SimpleGraph κ}

/-- An element, and a part of the nodes that contain it. -/
@[ext] structure Copy (C : κ → Finset ι) (T : SimpleGraph κ) where
  elem : ι
  part : (carrying C elem T).ConnectedComponent

noncomputable instance : DecidableEq (Copy C T) := Classical.decEq _

/-- The copy of `i` that the node `k` has. -/
def copyAt (C : κ → Finset ι) (T : SimpleGraph κ) (k : κ) (i : ι) : Copy C T :=
  ⟨i, (carrying C i T).connectedComponentMk k⟩

/-- The set of the node `k`, renamed. -/
noncomputable def copies (C : κ → Finset ι) (T : SimpleGraph κ) (k : κ) : Finset (Copy C T) :=
  (C k).image (copyAt C T k)

variable {u v k : κ} {i : ι}

@[simp] theorem copyAt_elem (k : κ) (i : ι) : (copyAt C T k i).elem = i := rfl

theorem copyAt_injective (k : κ) : Function.Injective (copyAt C T k) := fun _ _ heq =>
  congrArg Copy.elem heq

theorem copyAt_eq_iff : copyAt C T u i = copyAt C T v i ↔ (carrying C i T).Reachable u v := by
  rw [copyAt, copyAt, Copy.mk.injEq, heq_eq_eq, and_iff_right rfl, ConnectedComponent.eq]

/-- Adjacent nodes have the same copies of what they share. -/
theorem copyAt_eq_of_adj (hadj : T.Adj u v) (hu : i ∈ C u) (hv : i ∈ C v) :
    copyAt C T u i = copyAt C T v i := by
  have hcarried : (carrying C i T).Adj u v := ⟨hadj, hu, hv⟩
  exact copyAt_eq_iff.mpr hcarried.reachable

theorem mem_copies {c : Copy C T} :
    c ∈ copies C T k ↔ c.elem ∈ C k ∧ copyAt C T k c.elem = c := by
  rw [copies, Finset.mem_image]
  constructor
  · rintro ⟨i, hi, rfl⟩
    exact ⟨hi, rfl⟩
  · exact fun h => ⟨c.elem, h.1, h.2⟩

theorem copyAt_mem_copies : copyAt C T k i ∈ copies C T k ↔ i ∈ C k := by
  rw [mem_copies, copyAt_elem, and_iff_left rfl]

/-- Nodes joined through nodes that contain `i` are joined through nodes that have the copy. -/
theorem carrying_copies_reachable (p : (carrying C i T).Walk u v) :
    (carrying (copies C T) (copyAt C T u i) T).Reachable u v := by
  induction p with
  | nil => exact Reachable.refl _
  | cons hadj p ih =>
      have hcopy := copyAt_eq_of_adj hadj.1 hadj.2.1 hadj.2.2
      rw [← hcopy] at ih
      have hstep : (carrying (copies C T) (copyAt C T _ i) T).Adj _ _ :=
        ⟨hadj.1, copyAt_mem_copies.mpr hadj.2.1, hcopy ▸ copyAt_mem_copies.mpr hadj.2.2⟩
      exact hstep.reachable.trans ih

/-- **The renamed sets have running intersection.** -/
theorem isJunctionTree_copies (hT : IsTreeOn nodes T) : IsJunctionTree nodes (copies C T) T := by
  refine ⟨hT, (runningIntersection_iff_carrying hT.acyclic).mpr fun c u v _ hu hv => ?_⟩
  obtain ⟨-, hu⟩ := mem_copies.mp hu
  obtain ⟨-, hv⟩ := mem_copies.mp hv
  obtain ⟨p⟩ := copyAt_eq_iff.mp (hu.trans hv.symm)
  have hreach := carrying_copies_reachable p
  rwa [hu] at hreach

/-- What the renamed sets of adjacent nodes share. -/
theorem copies_inter [DecidableEq ι] (hadj : T.Adj u v) :
    copies C T u ∩ copies C T v = (C u ∩ C v).image (copyAt C T u) := by
  ext c
  rw [Finset.mem_inter, mem_copies, mem_copies, Finset.mem_image]
  constructor
  · rintro ⟨⟨hu, heq⟩, hv, -⟩
    exact ⟨c.elem, Finset.mem_inter.mpr ⟨hu, hv⟩, heq⟩
  · rintro ⟨i, hi, rfl⟩
    obtain ⟨hu, hv⟩ := Finset.mem_inter.mp hi
    exact ⟨⟨hu, rfl⟩, hv, (copyAt_eq_of_adj hadj hu hv).symm⟩

end JunctionBox.Hypertree

namespace JunctionBox.SumOut

open Finset

variable {ι ι' β K : Type*} [DecidableEq ι] [DecidableEq ι'] [CommSemiring K]

/-- Renaming variables. -/
theorem sumOut_image {c : ι → ι'} (hc : Function.Injective c) {dom : ι → Finset β}
    {dom' : ι' → Finset β} (hdom : ∀ i, dom' (c i) = dom i) (U : Finset ι) (f : (ι → β) → K)
    (y : ι' → β) :
    sumOut dom' (U.image c) (fun z => f (z ∘ c)) y = sumOut dom U f (y ∘ c) := by
  induction U using Finset.induction_on generalizing y with
  | empty => rw [image_empty, sumOut_empty, sumOut_empty]
  | insert a U ha ih =>
      have ha' : c a ∉ U.image c := fun hmem => ha (hc.mem_finset_image.mp hmem)
      rw [image_insert, sumOut_insert ha', sumOut_insert ha, hdom]
      refine sum_congr rfl fun b _ => ?_
      rw [ih, Function.update_comp_eq_of_injective _ hc]

end JunctionBox.SumOut

namespace JunctionBox.Propagation

open Finset Hypertree SumOut

variable {ι β κ ε K : Type*} [DecidableEq ι] [DecidableEq κ] [DecidableEq ε]
variable {nodes : Set κ} {C : κ → Finset ι} {S : ε → Finset ι} {T : SimpleGraph κ}
variable {ends : ε → Sym2 κ} {M : Finset (Message κ ε)} {m : Message κ ε} {e : ε} {k : κ}

variable (C S T ends) in
/-- The separators, renamed as at one of their ends. -/
noncomputable def copySep (e : ε) : Finset (Copy C T) :=
  (S e).image (copyAt C T (ends e).out.1)

variable (C T ends) in
/-- The factors, reading the copies. -/
noncomputable def renamed (b : Beliefs κ ε ι β K) : Beliefs κ ε (Copy C T) β K where
  clique k y := b.clique k (y ∘ copyAt C T k)
  sep e y := b.sep e (y ∘ copyAt C T (ends e).out.1)

omit [DecidableEq ι] [DecidableEq κ] [DecidableEq ε] in
@[simp] theorem renamed_clique (b : Beliefs κ ε ι β K) (k : κ) (y : Copy C T → β) :
    (renamed C T ends b).clique k y = b.clique k (y ∘ copyAt C T k) := rfl

omit [DecidableEq ι] [DecidableEq κ] [DecidableEq ε] in
@[simp] theorem renamed_sep (b : Beliefs κ ε ι β K) (e : ε) (y : Copy C T → β) :
    (renamed C T ends b).sep e y = b.sep e (y ∘ copyAt C T (ends e).out.1) := rfl

/-- The edges of the tree carry the letters, and their separators are what the ends share. -/
structure Labelled (C : κ → Finset ι) (S : ε → Finset ι) (T : SimpleGraph κ) (ends : ε → Sym2 κ)
    (M : Finset (Message κ ε)) : Prop extends EdgeLetters T ends M, Network C S M where
  inter : ∀ m ∈ M, S m.sep = C m.sender ∩ C m.receiver

omit [DecidableEq κ] [DecidableEq ε] in
/-- At both ends of an edge its separator has the same copies. -/
theorem Labelled.copyAt_eq (h : Labelled C S T ends M) (hm : m ∈ M) {i : ι} (hi : i ∈ S m.sep) :
    copyAt C T (ends m.sep).out.1 i = copyAt C T m.sender i ∧
      copyAt C T m.receiver i = copyAt C T m.sender i := by
  rw [h.inter m hm, mem_inter] at hi
  have hreceiver : copyAt C T m.receiver i = copyAt C T m.sender i :=
    (copyAt_eq_of_adj (h.adj m hm) hi.1 hi.2).symm
  refine ⟨?_, hreceiver⟩
  have hend := Sym2.out_fst_mem (ends m.sep)
  rw [h.ends_eq m hm, Sym2.mem_iff] at hend
  rw [h.ends_eq m hm]
  rcases hend with heq | heq
  · rw [heq]
  · rw [heq, hreceiver]

omit [DecidableEq κ] [DecidableEq ε] in
theorem Labelled.copySep_eq (h : Labelled C S T ends M) (hm : m ∈ M) :
    copySep C S T ends m.sep = (S m.sep).image (copyAt C T m.sender) :=
  image_congr fun _ hi => (h.copyAt_eq hm hi).1

omit [DecidableEq κ] [DecidableEq ε] in
/-- The renamed tree has the same letters. -/
theorem Labelled.copies (h : Labelled C S T ends M) :
    Labelled (Hypertree.copies C T) (copySep C S T ends) T ends M := by
  have hinter : ∀ m ∈ M, copySep C S T ends m.sep =
      Hypertree.copies C T m.sender ∩ Hypertree.copies C T m.receiver := fun m hm => by
    rw [copies_inter (h.adj m hm), h.copySep_eq hm, h.inter m hm]
  exact ⟨h.toEdgeLetters, ⟨fun m hm => ⟨(h.fits m hm).ne, hinter m hm ▸ inter_subset_left,
    hinter m hm ▸ inter_subset_right⟩, h.reply, h.sep_eq⟩, hinter⟩

omit [DecidableEq ι] [DecidableEq κ] in
theorem dependsOn_comp_copyAt {f : (ι → β) → K} {U : Finset ι} (hf : DependsOn f (U : Set ι))
    (k : κ) : DependsOn (fun y : Copy C T → β => f (y ∘ copyAt C T k))
      (U.image (copyAt C T k) : Set (Copy C T)) := by
  intro y y' hyy'
  exact hf fun i hi => hyy' _ (mem_coe.mpr (mem_image_of_mem _ hi))

omit [DecidableEq ε] [DecidableEq ι] [DecidableEq κ] in
theorem Scoped.renamed {b : Beliefs κ ε ι β K} (hb : Scoped C S b) :
    Scoped (Hypertree.copies C T) (copySep C S T ends) (renamed C T ends b) where
  clique k := dependsOn_comp_copyAt (hb.clique k) k
  sep e := dependsOn_comp_copyAt (hb.sep e) _

omit [DecidableEq κ] [DecidableEq ε] in
/-- What reads a separator reads the same at both its ends. -/
theorem Labelled.comp_eq (h : Labelled C S T ends M) (hm : m ∈ M) {f : (ι → β) → K}
    (hf : DependsOn f (S m.sep : Set ι)) (y : Copy C T → β) :
    f (y ∘ copyAt C T (ends m.sep).out.1) = f (y ∘ copyAt C T m.sender) ∧
      f (y ∘ copyAt C T m.receiver) = f (y ∘ copyAt C T m.sender) :=
  ⟨hf fun _ hi => congrArg y (h.copyAt_eq hm hi).1,
    hf fun _ hi => congrArg y (h.copyAt_eq hm hi).2⟩

section Field

variable [Field K] {dom : ι → Finset β} {b : Beliefs κ ε ι β K}

variable (dom) in
/-- The values of a copy. -/
def copyDom (c : Copy C T) : Finset β := dom c.elem

omit [DecidableEq κ] [DecidableEq ε] in
theorem dependsOn_marginal (hb : Scoped C S b) :
    DependsOn (marginal dom C S m b) (S m.sep : Set ι) := by
  refine (dependsOn_sumOut (hb.clique m.sender) _).mono fun i hi => ?_
  rw [mem_coe, mem_sdiff, mem_sdiff, not_and, not_not] at hi
  exact hi.2 hi.1

omit [DecidableEq κ] [DecidableEq ε] in
/-- Marginals of the renamed factors. -/
theorem Labelled.marginal_renamed (h : Labelled C S T ends M) (hm : m ∈ M) (y : Copy C T → β) :
    marginal (copyDom dom) (Hypertree.copies C T) (copySep C S T ends) m (renamed C T ends b) y =
      marginal dom C S m b (y ∘ copyAt C T m.sender) := by
  have hdiff : Hypertree.copies C T m.sender \ copySep C S T ends m.sep =
      (C m.sender \ S m.sep).image (copyAt C T m.sender) := by
    rw [h.copySep_eq hm, Hypertree.copies, image_sdiff _ _ (copyAt_injective _)]
  rw [marginal, hdiff]
  exact sumOut_image (copyAt_injective m.sender) (fun _ => rfl) _ (b.clique m.sender) y

/-- **A message between the renamed factors** is the message, renamed. -/
theorem Labelled.renamed_pass (h : Labelled C S T ends M) (hm : m ∈ M) (hb : Scoped C S b) :
    renamed C T ends (pass dom C S m b) = pass (copyDom dom) (Hypertree.copies C T)
      (copySep C S T ends) m (renamed C T ends b) := by
  have hclique : (renamed C T ends (pass dom C S m b)).clique = (pass (copyDom dom)
      (Hypertree.copies C T) (copySep C S T ends) m (renamed C T ends b)).clique := by
    funext k y
    rw [renamed_clique]
    by_cases hk : k = m.receiver
    · subst hk
      have hreads : DependsOn (marginal dom C S m b) (S m.sep : Set ι) := dependsOn_marginal hb
      obtain ⟨-, hmarginal⟩ := h.comp_eq hm hreads y
      obtain ⟨hend, hsep⟩ := h.comp_eq hm (hb.sep m.sep) y
      rw [pass_clique_receiver, pass_clique_receiver]
      beta_reduce
      rw [h.marginal_renamed hm, renamed_sep, renamed_clique, hmarginal, hsep, hend]
    · rw [pass_clique_of_ne hk, pass_clique_of_ne hk, renamed_clique]
  have hsep : (renamed C T ends (pass dom C S m b)).sep = (pass (copyDom dom)
      (Hypertree.copies C T) (copySep C S T ends) m (renamed C T ends b)).sep := by
    funext e y
    rw [renamed_sep]
    by_cases he : e = m.sep
    · subst he
      rw [pass_sep_self, pass_sep_self, h.marginal_renamed hm]
      exact (h.comp_eq hm (dependsOn_marginal hb) y).1
    · rw [pass_sep_of_ne he, pass_sep_of_ne he, renamed_sep]
  exact congrArg₂ Beliefs.mk hclique hsep

/-- **Messages do not notice the renaming.** -/
theorem Labelled.renamed_passAll (h : Labelled C S T ends M) {ms : List (Message κ ε)}
    (hms : ∀ m ∈ ms, m ∈ M) (hb : Scoped C S b) :
    renamed C T ends (passAll dom C S ms b) = passAll (copyDom dom) (Hypertree.copies C T)
      (copySep C S T ends) ms (renamed C T ends b) := by
  induction ms generalizing b with
  | nil => rfl
  | cons m ms ih =>
      have hm := hms m (List.mem_cons_self ..)
      rw [passAll_cons, passAll_cons, ← h.renamed_pass hm hb]
      refine ih (fun m' hm' => hms m' (List.mem_cons_of_mem _ hm')) (hb.pass ?_)
      exact (h.fits m hm).receiver

end Field

section Ordered

variable [Field K] [LinearOrder K] [IsStrictOrderedRing K]
variable {dom : ι → Finset β} {b : Beliefs κ ε ι β K} {A : Finset κ}

/-- **What the cliques of a tree learn.**  Who has heard from everybody holds the marginal of
the product of the factors, each of which reads the copies of its own clique. -/
theorem copies_of_hasHeard (h : Labelled C S T ends M) (hT : IsTreeOn nodes T)
    (hA : ∀ l, l ∈ A ↔ l ∈ nodes) (hk : k ∈ nodes) {ms : List (Message κ ε)}
    (hms : ∀ m ∈ ms, m ∈ M) (hheard : ∀ l ∈ nodes, HasHeard T ms l k) (hb : Scoped C S b)
    (hψ : Factors C b.clique) (hone : b.sep = fun _ _ => 1) {y : Copy C T → β}
    (hy : InDomain (copyDom dom) (Hypertree.copies C T) y) :
    (passAll dom C S ms b).clique k (y ∘ copyAt C T k) =
      sumOut (copyDom dom) (A.biUnion (Hypertree.copies C T) \ Hypertree.copies C T k)
        (fun z => ∏ l ∈ A, b.clique l (z ∘ copyAt C T l)) y := by
  have hfactors : Factors (Hypertree.copies C T) (renamed C T ends b).clique :=
    ⟨fun l z => hψ.nonneg l _, fun l => dependsOn_comp_copyAt (hψ.reads l) l⟩
  have hseps : (renamed C T ends b).sep = fun _ _ => 1 := by
    funext e z
    exact congrFun (congrFun hone e) _
  have hexact := exact_of_hasHeard (isJunctionTree_copies hT) h.copies.toEdgeLetters
    h.copies.toNetwork h.copies.inter hA hk hms hheard hb.renamed hfactors hseps hy
  rw [← h.renamed_passAll hms hb] at hexact
  exact hexact

end Ordered

end JunctionBox.Propagation
