import JunctionBox.Foundations.SumOut

/-!
# Passing messages between factors

A belief state has a factor for every clique and one for every separator.  A
message from `sender` to `receiver` over `sep` sums the sender's factor onto the
separator's variables, multiplies the receiver by the ratio of the new separator
to the old one and stores the new separator.  Division by zero is zero here, as
it is for the algorithm this models.

* `pass_joint`: the quotient of the cliques by the separators is not changed by
  any message, and a zero separator entry forces the entries of the cliques at
  its two ends to be zero (`Supported.pass`);
* `Absorbs.prod_eq`: when every message sends a clique whose remaining overlap
  with the other active cliques lies in its separator, a sequence of messages
  is variable elimination: the product of the cliques left is the sum over the
  variables that have disappeared;
* `calibrated_of_reply`: a clique that answers a message it has absorbed leaves
  the separator calibrated on both sides;
* `reply_exact`: and if everything else has been absorbed before, the
  receiver holds the marginal of the whole product.
-/

namespace JunctionBox.Propagation

open Finset SumOut

variable {ι β κ ε K : Type*}

/-- One call: which clique is updated, from which one, over which separator. -/
structure Message (κ ε : Type*) where
  receiver : κ
  sender : κ
  sep : ε
deriving DecidableEq

/-- The factors of all cliques and separators. -/
structure Beliefs (κ ε ι β K : Type*) where
  clique : κ → (ι → β) → K
  sep : ε → (ι → β) → K

variable [DecidableEq ι] [DecidableEq κ] [DecidableEq ε]

section Field

variable [Field K] (dom : ι → Finset β) (C : κ → Finset ι) (S : ε → Finset ι)

/-- The sender's factor summed onto the separator. -/
noncomputable def marginal (m : Message κ ε) (b : Beliefs κ ε ι β K) : (ι → β) → K :=
  sumOut dom (C m.sender \ S m.sep) (b.clique m.sender)

noncomputable def pass (m : Message κ ε) (b : Beliefs κ ε ι β K) : Beliefs κ ε ι β K where
  clique := Function.update b.clique m.receiver fun x =>
    marginal dom C S m b x / b.sep m.sep x * b.clique m.receiver x
  sep := Function.update b.sep m.sep (marginal dom C S m b)

noncomputable def passAll (ms : List (Message κ ε)) (b : Beliefs κ ε ι β K) :
    Beliefs κ ε ι β K :=
  ms.foldl (fun b m => pass dom C S m b) b

/-- Every factor reads its own variables only. -/
structure Scoped (b : Beliefs κ ε ι β K) : Prop where
  clique : ∀ k, DependsOn (b.clique k) (C k : Set ι)
  sep : ∀ e, DependsOn (b.sep e) (S e : Set ι)

/-- The separator of a message lies in both cliques. -/
structure Fits (m : Message κ ε) : Prop where
  ne : m.sender ≠ m.receiver
  sender : S m.sep ⊆ C m.sender
  receiver : S m.sep ⊆ C m.receiver

variable {dom C S}

@[simp] theorem passAll_nil (b : Beliefs κ ε ι β K) : passAll dom C S [] b = b := rfl

@[simp] theorem passAll_cons (m : Message κ ε) (ms : List (Message κ ε))
    (b : Beliefs κ ε ι β K) :
    passAll dom C S (m :: ms) b = passAll dom C S ms (pass dom C S m b) := rfl

theorem passAll_append (ms ms' : List (Message κ ε)) (b : Beliefs κ ε ι β K) :
    passAll dom C S (ms ++ ms') b = passAll dom C S ms' (passAll dom C S ms b) :=
  List.foldl_append

@[simp] theorem pass_sep_self (m : Message κ ε) (b : Beliefs κ ε ι β K) :
    (pass dom C S m b).sep m.sep = marginal dom C S m b := Function.update_self ..

theorem pass_sep_of_ne {m : Message κ ε} {e : ε} (h : e ≠ m.sep) (b : Beliefs κ ε ι β K) :
    (pass dom C S m b).sep e = b.sep e := Function.update_of_ne h ..

@[simp] theorem pass_clique_receiver (m : Message κ ε) (b : Beliefs κ ε ι β K) :
    (pass dom C S m b).clique m.receiver =
      fun x => marginal dom C S m b x / b.sep m.sep x * b.clique m.receiver x :=
  Function.update_self ..

theorem pass_clique_of_ne {m : Message κ ε} {k : κ} (h : k ≠ m.receiver)
    (b : Beliefs κ ε ι β K) : (pass dom C S m b).clique k = b.clique k :=
  Function.update_of_ne h ..

/-- Cliques that receive nothing keep their factor. -/
theorem passAll_clique_of_forall_ne {ms : List (Message κ ε)} {k : κ}
    (h : ∀ m ∈ ms, k ≠ m.receiver) (b : Beliefs κ ε ι β K) :
    (passAll dom C S ms b).clique k = b.clique k := by
  induction ms generalizing b with
  | nil => rfl
  | cons m ms ih =>
      rw [passAll_cons, ih fun m' hm' => h m' (List.mem_cons_of_mem _ hm'),
        pass_clique_of_ne (h m (List.mem_cons_self ..))]

theorem passAll_sep_of_forall_ne {ms : List (Message κ ε)} {e : ε}
    (h : ∀ m ∈ ms, e ≠ m.sep) (b : Beliefs κ ε ι β K) :
    (passAll dom C S ms b).sep e = b.sep e := by
  induction ms generalizing b with
  | nil => rfl
  | cons m ms ih =>
      rw [passAll_cons, ih fun m' hm' => h m' (List.mem_cons_of_mem _ hm'),
        pass_sep_of_ne (h m (List.mem_cons_self ..))]

/-- Messages multiply, so a zero entry stays zero. -/
theorem passAll_clique_eq_zero (ms : List (Message κ ε)) {k : κ} {x : ι → β}
    {b : Beliefs κ ε ι β K} (h : b.clique k x = 0) : (passAll dom C S ms b).clique k x = 0 := by
  induction ms generalizing b with
  | nil => exact h
  | cons m ms ih =>
      refine ih ?_
      by_cases hk : k = m.receiver
      · subst hk
        rw [pass_clique_receiver]
        simp only [h, mul_zero]
      · rw [pass_clique_of_ne hk, h]

omit [DecidableEq κ] [DecidableEq ε] in
theorem Scoped.marginal {b : Beliefs κ ε ι β K} (hb : Scoped C S b) (m : Message κ ε) :
    DependsOn (marginal dom C S m b) (S m.sep : Set ι) := by
  refine (dependsOn_sumOut (hb.clique m.sender) _).mono ?_
  intro i hi
  simp only [coe_sdiff, Set.mem_sdiff, mem_coe, not_and, not_not] at hi
  exact hi.2 hi.1

theorem Scoped.pass {b : Beliefs κ ε ι β K} (hb : Scoped C S b) {m : Message κ ε}
    (hm : S m.sep ⊆ C m.receiver) : Scoped C S (pass dom C S m b) where
  clique k := by
    by_cases hk : k = m.receiver
    · subst hk
      rw [pass_clique_receiver]
      intro x y hxy
      have hsep : ∀ i ∈ (S m.sep : Set ι), x i = y i := fun i hi => hxy i (hm hi)
      simp only [hb.marginal m hsep, hb.sep m.sep hsep, hb.clique m.receiver hxy]
    · rw [pass_clique_of_ne hk]
      exact hb.clique k
  sep e := by
    by_cases he : e = m.sep
    · subst he
      rw [pass_sep_self]
      exact hb.marginal m
    · rw [pass_sep_of_ne he]
      exact hb.sep e

theorem Scoped.passAll {ms : List (Message κ ε)} (hms : ∀ m ∈ ms, S m.sep ⊆ C m.receiver)
    {b : Beliefs κ ε ι β K} (hb : Scoped C S b) : Scoped C S (passAll dom C S ms b) := by
  induction ms generalizing b with
  | nil => exact hb
  | cons m ms ih =>
      exact ih (fun m' hm' => hms m' (List.mem_cons_of_mem _ hm'))
        (hb.pass (hms m (List.mem_cons_self ..)))

/-! ## Absorbing cliques one by one -/

variable (C S)

/-- The messages `ms` remove the cliques of `A` one after the other until only
`B` is left; each one sends to an active clique, over a separator of its own
that contains all it shares with the active cliques. -/
inductive Absorbs : Finset κ → List (Message κ ε) → Finset κ → Prop
  | nil (A : Finset κ) : Absorbs A [] A
  | cons {A B : Finset κ} {m : Message κ ε} {ms : List (Message κ ε)} :
      m.sender ∈ A → m.receiver ∈ A → Fits C S m →
      (∀ k ∈ A, k ≠ m.sender → C m.sender ∩ C k ⊆ S m.sep) →
      (∀ m' ∈ ms, m'.sep ≠ m.sep) →
      Absorbs (A.erase m.sender) ms B → Absorbs A (m :: ms) B

variable {C S}

omit [DecidableEq ε] in
theorem Absorbs.subset {A B : Finset κ} {ms : List (Message κ ε)} (h : Absorbs C S A ms B) :
    B ⊆ A := by
  induction h with
  | nil A => exact Subset.rfl
  | cons _ _ _ _ _ _ ih => exact ih.trans (erase_subset _ _)

omit [DecidableEq ε] in
theorem Absorbs.append {A B D : Finset κ} {ms ms' : List (Message κ ε)}
    (h : Absorbs C S A ms B) (h' : Absorbs C S B ms' D)
    (hfresh : ∀ m ∈ ms, ∀ m' ∈ ms', m'.sep ≠ m.sep) : Absorbs C S A (ms ++ ms') D := by
  induction h with
  | nil A => exact h'
  | @cons A B m ms hs hr hfits hshare hown _ ih =>
      refine Absorbs.cons hs hr hfits hshare (fun m' hm' => ?_)
        (ih h' fun m₁ hm₁ => hfresh m₁ (List.mem_cons_of_mem _ hm₁))
      rcases List.mem_append.mp hm' with hm' | hm'
      · exact hown m' hm'
      · exact hfresh m (List.mem_cons_self ..) m' hm'

omit [DecidableEq ε] in
theorem Absorbs.fits {A B : Finset κ} {ms : List (Message κ ε)} (h : Absorbs C S A ms B) :
    ∀ m ∈ ms, Fits C S m ∧ m.sender ∈ A ∧ m.receiver ∈ A := by
  induction h with
  | nil A => simp
  | cons hs hr hfits _ _ _ ih =>
      intro m hm
      rcases List.mem_cons.mp hm with rfl | hm
      · exact ⟨hfits, hs, hr⟩
      · exact ⟨(ih m hm).1, mem_of_mem_erase (ih m hm).2.1, mem_of_mem_erase (ih m hm).2.2⟩

omit [DecidableEq ε] in
/-- Nobody sends twice, and nobody over somebody else's separator. -/
theorem Absorbs.nodup {A B : Finset κ} {ms : List (Message κ ε)} (h : Absorbs C S A ms B) :
    (ms.map Message.sender).Nodup ∧ (ms.map Message.sep).Nodup := by
  induction h with
  | nil A => exact ⟨List.nodup_nil, List.nodup_nil⟩
  | @cons A B m ms _ _ _ _ hown hrest ih =>
      rw [List.map_cons, List.map_cons, List.nodup_cons, List.nodup_cons]
      refine ⟨⟨fun hmem => ?_, ih.1⟩, fun hmem => ?_, ih.2⟩
      · obtain ⟨m', hm', heq⟩ := List.mem_map.mp hmem
        exact ne_of_mem_erase (hrest.fits m' hm').2.1 heq
      · obtain ⟨m', hm', heq⟩ := List.mem_map.mp hmem
        exact hown m' hm' heq

omit [DecidableEq ε] in
omit [DecidableEq κ] in
theorem dependsOn_prod {b : Beliefs κ ε ι β K} (hb : ∀ k, DependsOn (b.clique k) (C k : Set ι))
    (A : Finset κ) :
    DependsOn (fun x => ∏ k ∈ A, b.clique k x) ((A.biUnion C : Finset ι) : Set ι) := by
  intro x y hxy
  refine prod_congr rfl fun k hk => hb k fun i hi => hxy i ?_
  exact mem_coe.mpr (mem_biUnion.mpr ⟨k, hk, hi⟩)

omit [DecidableEq ε] in
/-- What the sender has and the separator has not occurs nowhere else. -/
theorem disjoint_sdiff_biUnion {A : Finset κ} {m : Message κ ε}
    (hshare : ∀ k ∈ A, k ≠ m.sender → C m.sender ∩ C k ⊆ S m.sep) :
    Disjoint (C m.sender \ S m.sep) ((A.erase m.sender).biUnion C) := by
  rw [disjoint_left]
  intro i hi hmem
  obtain ⟨k, hk, hik⟩ := mem_biUnion.mp hmem
  rw [mem_sdiff] at hi
  exact hi.2 (hshare k (mem_of_mem_erase hk) (ne_of_mem_erase hk) (mem_inter.mpr ⟨hi.1, hik⟩))

/-- One absorption sums out the variables only the sender has. -/
theorem prod_erase_pass {A : Finset κ} {m : Message κ ε} {b : Beliefs κ ε ι β K}
    (hb : Scoped C S b) (hs : m.sender ∈ A) (hr : m.receiver ∈ A) (hfits : Fits C S m)
    (hshare : ∀ k ∈ A, k ≠ m.sender → C m.sender ∩ C k ⊆ S m.sep)
    (hone : b.sep m.sep = fun _ => 1) :
    (fun x => ∏ k ∈ A.erase m.sender, (pass dom C S m b).clique k x) =
      sumOut dom (C m.sender \ S m.sep) fun x => ∏ k ∈ A, b.clique k x := by
  have hdisj := disjoint_sdiff_biUnion hshare
  have hmem : m.receiver ∈ A.erase m.sender := mem_erase.mpr ⟨hfits.ne.symm, hr⟩
  have hsplit : (fun x => ∏ k ∈ A, b.clique k x) =
      fun x => b.clique m.sender x * ∏ k ∈ A.erase m.sender, b.clique k x := by
    funext x
    rw [mul_prod_erase A (fun k => b.clique k x) hs]
  rw [hsplit, sumOut_mul_right (dependsOn_prod hb.clique _) hdisj]
  funext x
  rw [← mul_prod_erase _ _ hmem, ← mul_prod_erase _ (fun k => b.clique k x) hmem]
  have hrest : ∀ k ∈ (A.erase m.sender).erase m.receiver,
      (pass dom C S m b).clique k x = b.clique k x := fun k hk => by
    rw [pass_clique_of_ne (ne_of_mem_erase hk)]
  rw [prod_congr rfl hrest, pass_clique_receiver, hone]
  simp only [div_one, marginal]
  exact mul_assoc _ _ _

/-- **Variable elimination.**  The cliques left hold the sum over the variables
that have disappeared of the product of all cliques. -/
theorem Absorbs.prod_eq {A B : Finset κ} {ms : List (Message κ ε)} (h : Absorbs C S A ms B)
    {b : Beliefs κ ε ι β K} (hb : Scoped C S b) (hone : ∀ m ∈ ms, b.sep m.sep = fun _ => 1) :
    (fun x => ∏ k ∈ B, (passAll dom C S ms b).clique k x) =
      sumOut dom (A.biUnion C \ B.biUnion C) fun x => ∏ k ∈ A, b.clique k x := by
  induction h generalizing b with
  | nil A => rw [sdiff_self, bot_eq_empty, sumOut_empty]; rfl
  | @cons A B m ms hs hr hfits hshare hfresh hrest ih =>
      have hone' : ∀ m' ∈ ms, (pass dom C S m b).sep m'.sep = fun _ => 1 := by
        intro m' hm'
        rw [pass_sep_of_ne (hfresh m' hm')]
        exact hone m' (List.mem_cons_of_mem _ hm')
      have hBC : B.biUnion C ⊆ (A.erase m.sender).biUnion C :=
        biUnion_subset_biUnion_of_subset_left C hrest.subset
      have hsender : ∀ i ∈ C m.sender \ S m.sep, i ∉ (A.erase m.sender).biUnion C := fun _ hi =>
        disjoint_left.mp (disjoint_sdiff_biUnion hshare) hi
      have hreceiver : m.receiver ∈ A.erase m.sender := mem_erase.mpr ⟨hfits.ne.symm, hr⟩
      -- the variables gone are those of the later messages and those of this one
      have hgone : A.biUnion C \ B.biUnion C =
          ((A.erase m.sender).biUnion C \ B.biUnion C) ∪ (C m.sender \ S m.sep) := by
        ext i
        rw [mem_union, mem_sdiff, mem_sdiff, ← insert_erase hs, biUnion_insert,
          erase_insert (notMem_erase _ _), mem_union]
        constructor
        · rintro ⟨hi | hi, hB⟩
          · by_cases hiS : i ∈ S m.sep
            · exact Or.inl ⟨mem_biUnion.mpr ⟨_, hreceiver, hfits.receiver hiS⟩, hB⟩
            · exact Or.inr (mem_sdiff.mpr ⟨hi, hiS⟩)
          · exact Or.inl ⟨hi, hB⟩
        · rintro (⟨hi, hB⟩ | hi)
          · exact ⟨Or.inr hi, hB⟩
          · exact ⟨Or.inl (mem_sdiff.mp hi).1, fun hB => hsender i hi (hBC hB)⟩
      have hdisj : Disjoint ((A.erase m.sender).biUnion C \ B.biUnion C)
          (C m.sender \ S m.sep) := by
        rw [disjoint_right]
        exact fun i hi hmem => hsender i hi (mem_sdiff.mp hmem).1
      rw [passAll_cons, ih (hb.pass hfits.receiver) hone', hgone, sumOut_union hdisj,
        prod_erase_pass hb hs hr hfits hshare (hone m (List.mem_cons_self ..))]

/-- Absorbing everything into `root` computes the root's marginal. -/
theorem Absorbs.clique_root {A : Finset κ} {root : κ} {ms : List (Message κ ε)}
    (h : Absorbs C S A ms {root}) {b : Beliefs κ ε ι β K} (hb : Scoped C S b)
    (hone : ∀ m ∈ ms, b.sep m.sep = fun _ => 1) :
    (passAll dom C S ms b).clique root =
      sumOut dom (A.biUnion C \ C root) fun x => ∏ k ∈ A, b.clique k x := by
  have hprod : (fun x => ∏ k ∈ {root}, (passAll dom C S ms b).clique k x) = _ :=
    h.prod_eq hb hone
  simpa only [prod_singleton, singleton_biUnion] using hprod

/-- After absorption the separator of every message is the marginal of its
sender, and where it is zero the receiver is zero. -/
theorem Absorbs.absorbed {A B : Finset κ} {ms : List (Message κ ε)} (h : Absorbs C S A ms B)
    {b : Beliefs κ ε ι β K} {m : Message κ ε} (hm : m ∈ ms) :
    (passAll dom C S ms b).sep m.sep = marginal dom C S m (passAll dom C S ms b) ∧
      ∀ x, (passAll dom C S ms b).sep m.sep x = 0 →
        (passAll dom C S ms b).clique m.receiver x = 0 := by
  induction h generalizing b with
  | nil A => simp at hm
  | @cons A B m' ms _ _ hfits _ hfresh hrest ih =>
      rcases List.mem_cons.mp hm with rfl | hm
      · have hsep : (passAll dom C S ms (pass dom C S m b)).sep m.sep = marginal dom C S m b := by
          rw [passAll_sep_of_forall_ne fun m' hm' => (hfresh m' hm').symm, pass_sep_self]
        -- the sender is no longer active, so nobody writes to it again
        have hclique : (passAll dom C S ms (pass dom C S m b)).clique m.sender =
            b.clique m.sender := by
          rw [passAll_clique_of_forall_ne (fun m' hm' => ?_), pass_clique_of_ne hfits.ne]
          exact (ne_of_mem_erase ((hrest.fits m' hm').2.2)).symm
        rw [passAll_cons, hsep]
        refine ⟨by rw [marginal, marginal, hclique], fun x hx => ?_⟩
        refine passAll_clique_eq_zero ms ?_
        rw [pass_clique_receiver]
        simp only [hx, zero_div, zero_mul]
      · exact ih hm

/-! ## Answering -/

/-- A clique over whose separator the last message came from the other end. -/
def Absorbed (m : Message κ ε) (b : Beliefs κ ε ι β K) (dom : ι → Finset β)
    (C : κ → Finset ι) (S : ε → Finset ι) : Prop :=
  b.sep m.sep = marginal dom C S m b ∧ ∀ x, b.sep m.sep x = 0 → b.clique m.receiver x = 0

/-- The message in the opposite direction. -/
def Message.reply (m : Message κ ε) : Message κ ε := ⟨m.sender, m.receiver, m.sep⟩

/-- Summing the answered clique onto the separator gives the answer. -/
theorem marginal_pass_reply {m : Message κ ε} {b : Beliefs κ ε ι β K} (hb : Scoped C S b)
    (h : Absorbed m b dom C S) :
    marginal dom C S m (pass dom C S m.reply b) = marginal dom C S m.reply b := by
  have hratio : DependsOn
      (fun x => marginal dom C S m.reply b x / b.sep m.sep x) (S m.sep : Set ι) := by
    intro x y hxy
    have hmarg : marginal dom C S m.reply b x = marginal dom C S m.reply b y :=
      hb.marginal m.reply hxy
    have hsep := hb.sep m.sep hxy
    simp only [hmarg, hsep]
  have hclique : (pass dom C S m.reply b).clique m.sender =
      fun x => marginal dom C S m.reply b x / b.sep m.sep x * b.clique m.sender x :=
    pass_clique_receiver m.reply b
  have hdisj : Disjoint (C m.sender \ S m.sep) (S m.sep) := sdiff_disjoint
  rw [marginal, hclique, sumOut_mul_left hratio hdisj]
  funext x
  have hold : sumOut dom (C m.sender \ S m.sep) (b.clique m.sender) x = b.sep m.sep x :=
    (congrFun h.1 x).symm
  rw [hold]
  by_cases hx : b.sep m.sep x = 0
  · -- the other end vanishes wherever the separator does, so the answer is zero there
    have hzero : marginal dom C S m.reply b x = 0 := by
      rw [marginal, sumOut_congr (g := fun _ => 0), sumOut_const, mul_zero]
      intro z hz
      refine h.2 z ?_
      rw [← hx]
      refine hb.sep m.sep fun i hi => (mem_extensions.mp hz).2 i fun hmem => ?_
      exact (mem_sdiff.mp hmem).2 hi
    rw [hzero, hx, zero_div, zero_mul]
  · rw [div_mul_cancel₀ _ hx]

/-- **Calibration.**  After the answer both ends of the separator sum to it. -/
theorem calibrated_of_reply {m : Message κ ε} {b : Beliefs κ ε ι β K} (hb : Scoped C S b)
    (hne : m.sender ≠ m.receiver) (h : Absorbed m b dom C S) :
    let b' := pass dom C S m.reply b
    b'.sep m.sep = marginal dom C S m b' ∧ b'.sep m.sep = marginal dom C S m.reply b' := by
  have hsep : (pass dom C S m.reply b).sep m.sep = marginal dom C S m.reply b :=
    pass_sep_self m.reply b
  have hother : (pass dom C S m.reply b).clique m.receiver = b.clique m.receiver :=
    pass_clique_of_ne hne.symm b
  refine ⟨?_, ?_⟩
  · rw [hsep, marginal_pass_reply hb h]
  · rw [hsep, marginal, marginal]
    exact congrArg _ hother.symm

/-- Answers to different senders do not disturb each other: in one pass over
`ms` every answer is computed from the same clique `root`. -/
theorem passAll_reply {root : κ} {ms : List (Message κ ε)} {b : Beliefs κ ε ι β K}
    (hroot : ∀ m ∈ ms, m.receiver = root ∧ m.sender ≠ root)
    (hsenders : (ms.map Message.sender).Nodup) (hseps : (ms.map Message.sep).Nodup)
    {m : Message κ ε} (hm : m ∈ ms) :
    (passAll dom C S (ms.map Message.reply) b).clique m.sender =
        (pass dom C S m.reply b).clique m.sender ∧
      (passAll dom C S (ms.map Message.reply) b).sep m.sep =
        (pass dom C S m.reply b).sep m.sep := by
  induction ms generalizing b with
  | nil => simp at hm
  | cons m' ms ih =>
      rw [List.map_cons, List.nodup_cons] at hsenders hseps
      have hroot' : ∀ m ∈ ms, m.receiver = root ∧ m.sender ≠ root := fun m hm =>
        hroot m (List.mem_cons_of_mem _ hm)
      rw [List.map_cons, passAll_cons]
      rcases List.mem_cons.mp hm with rfl | hm
      · refine ⟨passAll_clique_of_forall_ne (fun r hr => ?_) _,
          passAll_sep_of_forall_ne (fun r hr => ?_) _⟩
        · obtain ⟨m'', hm'', rfl⟩ := List.mem_map.mp hr
          exact fun heq => hsenders.1 (List.mem_map.mpr ⟨m'', hm'', heq.symm⟩)
        · obtain ⟨m'', hm'', rfl⟩ := List.mem_map.mp hr
          exact fun heq => hseps.1 (List.mem_map.mpr ⟨m'', hm'', heq.symm⟩)
      · have hne : m.sender ≠ m'.sender := fun heq =>
          hsenders.1 (List.mem_map.mpr ⟨m, hm, heq⟩)
        have hsep : m.sep ≠ m'.sep := fun heq => hseps.1 (List.mem_map.mpr ⟨m, hm, heq⟩)
        have hrecv : m.receiver ≠ m'.sender := by
          rw [(hroot' m hm).1]
          exact ((hroot m' (List.mem_cons_self ..)).2).symm
        have hclique : ∀ k, k ≠ m'.sender → (pass dom C S m'.reply b).clique k = b.clique k :=
          fun k hk => pass_clique_of_ne (m := m'.reply) hk b
        have hsame : (pass dom C S m'.reply b).sep m.sep = b.sep m.sep :=
          pass_sep_of_ne (m := m'.reply) hsep b
        have hmarg : marginal dom C S m.reply (pass dom C S m'.reply b) =
            marginal dom C S m.reply b := by
          rw [marginal, marginal]
          exact congrArg _ (hclique m.receiver hrecv)
        obtain ⟨ihclique, ihsep⟩ := ih (b := pass dom C S m'.reply b) hroot' hsenders.2 hseps.2 hm
        refine ⟨?_, ?_⟩
        · have hsame' : (pass dom C S m'.reply b).sep m.reply.sep = b.sep m.reply.sep := hsame
          have hclique' : (pass dom C S m'.reply b).clique m.reply.receiver =
              b.clique m.reply.receiver := hclique m.sender hne
          have hreply : (pass dom C S m.reply (pass dom C S m'.reply b)).clique
              m.reply.receiver = (pass dom C S m.reply b).clique m.reply.receiver := by
            rw [pass_clique_receiver, pass_clique_receiver, hmarg, hsame', hclique']
          exact ihclique.trans hreply
        · calc (passAll dom C S ((m' :: ms).map Message.reply) b).sep m.sep
              = (pass dom C S m.reply (pass dom C S m'.reply b)).sep m.sep := ihsep
            _ = marginal dom C S m.reply (pass dom C S m'.reply b) := pass_sep_self m.reply _
            _ = marginal dom C S m.reply b := hmarg
            _ = (pass dom C S m.reply b).sep m.sep := (pass_sep_self m.reply b).symm

/-! ## Stars -/

/-- Every clique of `A` other than `root` sends one message to `root`. -/
structure Star (C : κ → Finset ι) (S : ε → Finset ι) (A : Finset κ) (root : κ)
    (ms : List (Message κ ε)) : Prop where
  root_mem : root ∈ A
  receiver : ∀ m ∈ ms, m.receiver = root
  fits : ∀ m ∈ ms, Fits C S m
  sender_mem : ∀ m ∈ ms, m.sender ∈ A
  senders_nodup : (ms.map Message.sender).Nodup
  seps_nodup : (ms.map Message.sep).Nodup
  cover : ∀ k ∈ A, k ≠ root → ∃ m ∈ ms, m.sender = k
  share : ∀ m ∈ ms, ∀ k ∈ A, k ≠ m.sender → C m.sender ∩ C k ⊆ S m.sep

/-- Some of the leaves of a star are absorbed. -/
theorem Star.absorbs_sublist {A : Finset κ} {root : κ} {ms : List (Message κ ε)}
    (h : Star C S A root ms) {l : List (Message κ ε)} (hl : l.Sublist ms) {D : Finset κ}
    (hD : D ⊆ A) (hroot : root ∈ D) (hsend : ∀ m ∈ l, m.sender ∈ D) :
    Absorbs C S D l (D \ (l.map Message.sender).toFinset) := by
  induction l generalizing D with
  | nil => simpa using Absorbs.nil D
  | cons m l ih =>
      have hm : m ∈ ms := hl.subset (List.mem_cons_self ..)
      have hsenders := h.senders_nodup.sublist (hl.map Message.sender)
      have hseps := h.seps_nodup.sublist (hl.map Message.sep)
      rw [List.map_cons, List.nodup_cons] at hsenders hseps
      have hne : root ≠ m.sender := by
        rw [← h.receiver m hm]
        exact (h.fits m hm).ne.symm
      have hrest : Absorbs C S (D.erase m.sender) l
          (D.erase m.sender \ (l.map Message.sender).toFinset) := by
        refine ih ((List.sublist_cons_self m l).trans hl) ((erase_subset _ _).trans hD)
          (mem_erase.mpr ⟨hne, hroot⟩) fun m' hm' => mem_erase.mpr ⟨fun heq => ?_,
          hsend m' (List.mem_cons_of_mem _ hm')⟩
        exact hsenders.1 (List.mem_map.mpr ⟨m', hm', heq⟩)
      have hleft : D \ ((m :: l).map Message.sender).toFinset =
          D.erase m.sender \ (l.map Message.sender).toFinset := by
        ext k
        simp only [List.map_cons, List.toFinset_cons, mem_sdiff, mem_insert, mem_erase, not_or]
        tauto
      rw [hleft]
      refine Absorbs.cons (hsend m (List.mem_cons_self ..)) ?_ (h.fits m hm)
        (fun k hk => h.share m hm k (hD hk)) (fun m' hm' heq => ?_) hrest
      · rw [h.receiver m hm]
        exact hroot
      · exact hseps.1 (List.mem_map.mpr ⟨m', hm', heq⟩)

theorem Star.absorbs {A : Finset κ} {root : κ} {ms : List (Message κ ε)}
    (h : Star C S A root ms) : Absorbs C S A ms {root} := by
  have habsorbs := h.absorbs_sublist (List.Sublist.refl ms) Subset.rfl h.root_mem h.sender_mem
  have hleft : A \ (ms.map Message.sender).toFinset = {root} := by
    ext k
    simp only [mem_sdiff, List.mem_toFinset, List.mem_map, mem_singleton, not_exists, not_and]
    constructor
    · rintro ⟨hk, hnot⟩
      by_contra hne
      obtain ⟨m, hm, heq⟩ := h.cover k hk hne
      exact hnot m hm heq
    · rintro rfl
      refine ⟨h.root_mem, fun m hm heq => (h.fits m hm).ne ?_⟩
      rw [heq, h.receiver m hm]
  exact hleft ▸ habsorbs

/-- The hub of a star is multiplied by the marginals of the leaves. -/
theorem passAll_star {root : κ} {ms : List (Message κ ε)} {b : Beliefs κ ε ι β K}
    (hroot : ∀ m ∈ ms, m.receiver = root ∧ m.sender ≠ root)
    (hseps : (ms.map Message.sep).Nodup) (hone : ∀ m ∈ ms, b.sep m.sep = fun _ => 1) :
    (passAll dom C S ms b).clique root =
      fun x => (ms.map fun m => marginal dom C S m b x).prod * b.clique root x := by
  induction ms generalizing b with
  | nil => simp
  | cons m ms ih =>
      rw [List.map_cons, List.nodup_cons] at hseps
      have hm := hroot m (List.mem_cons_self ..)
      have hmarg : ∀ m' ∈ ms, marginal dom C S m' (pass dom C S m b) =
          marginal dom C S m' b := fun m' hm' => by
        rw [marginal, marginal, pass_clique_of_ne]
        rw [hm.1]
        exact (hroot m' (List.mem_cons_of_mem _ hm')).2
      have hclique : (pass dom C S m b).clique root =
          fun x => marginal dom C S m b x * b.clique root x := by
        have h : (pass dom C S m b).clique m.receiver = _ := pass_clique_receiver m b
        rw [hm.1] at h
        rw [h, hone m (List.mem_cons_self ..)]
        simp only [div_one]
      rw [passAll_cons, ih (fun m' hm' => hroot m' (List.mem_cons_of_mem _ hm')) hseps.2
        fun m' hm' => ?_, hclique]
      · funext x
        have hrest : (ms.map fun m' => marginal dom C S m' (pass dom C S m b) x) =
            ms.map fun m' => marginal dom C S m' b x :=
          List.map_congr_left fun m' hm' => congrFun (hmarg m' hm') x
        rw [List.map_cons, List.prod_cons, hrest]
        exact (mul_left_comm _ _ _).trans (mul_assoc _ _ _).symm
      · rw [pass_sep_of_ne fun heq => hseps.1 (List.mem_map.mpr ⟨m', hm', heq⟩)]
        exact hone m' (List.mem_cons_of_mem _ hm')

section StarRuns

variable {A : Finset κ} {root : κ} {ms : List (Message κ ε)} {b : Beliefs κ ε ι β K}
  {m : Message κ ε}

omit [DecidableEq κ] [DecidableEq ε] in
theorem Star.hub (h : Star C S A root ms) : ∀ m ∈ ms, m.receiver = root ∧ m.sender ≠ root := by
  intro m hm
  refine ⟨h.receiver m hm, ?_⟩
  rw [← h.receiver m hm]
  exact (h.fits m hm).ne

theorem Star.sep_ne_of_mem_erase (h : Star C S A root ms) (hm : m ∈ ms) {m' : Message κ ε}
    (hm' : m' ∈ ms.erase m) : m.sep ≠ m'.sep := by
  have hseps := h.seps_nodup.perm ((List.perm_cons_erase hm).map _)
  rw [List.map_cons, List.nodup_cons] at hseps
  exact fun heq => hseps.1 (List.mem_map.mpr ⟨m', hm', heq.symm⟩)

theorem Star.sender_ne_of_mem_erase (h : Star C S A root ms) (hm : m ∈ ms) {m' : Message κ ε}
    (hm' : m' ∈ ms.erase m) : m.sender ≠ m'.sender := by
  have hsenders := h.senders_nodup.perm ((List.perm_cons_erase hm).map _)
  rw [List.map_cons, List.nodup_cons] at hsenders
  exact fun heq => hsenders.1 (List.mem_map.mpr ⟨m', hm', heq.symm⟩)

/-- Leaves never receive. -/
theorem Star.clique_leaf (h : Star C S A root ms) {l : List (Message κ ε)} (hl : l.Sublist ms)
    (hm : m ∈ ms) : (passAll dom C S l b).clique m.sender = b.clique m.sender := by
  refine passAll_clique_of_forall_ne (fun m' hm' heq => (h.hub m hm).2 ?_) b
  rw [heq, (h.hub m' (hl.subset hm')).1]

theorem Star.sep_eq_marginal (h : Star C S A root ms) (hm : m ∈ ms) :
    (passAll dom C S ms b).sep m.sep = marginal dom C S m b := by
  rw [(h.absorbs.absorbed hm).1, marginal, marginal, h.clique_leaf (List.Sublist.refl ms) hm]

/-- The leaf `m.sender` may be the last one left instead of the hub. -/
theorem Star.absorbs_to_leaf (h : Star C S A root ms) (hm : m ∈ ms) :
    Absorbs C S A (ms.erase m ++ [m.reply]) {m.sender} := by
  have hsub : (ms.erase m).Sublist ms := List.erase_sublist
  have hne : root ≠ m.sender := (h.hub m hm).2.symm
  have hleft : A \ ((ms.erase m).map Message.sender).toFinset = {root, m.sender} := by
    ext k
    simp only [mem_sdiff, List.mem_toFinset, mem_insert, mem_singleton]
    constructor
    · rintro ⟨hk, hnot⟩
      by_contra hother
      rw [not_or] at hother
      obtain ⟨m', hm', rfl⟩ := h.cover k hk hother.1
      rcases List.mem_cons.mp ((List.perm_cons_erase hm).subset hm') with rfl | hm'
      · exact hother.2 rfl
      · exact hnot (List.mem_map_of_mem hm')
    · rintro (rfl | rfl)
      · refine ⟨h.root_mem, fun hmem => ?_⟩
        obtain ⟨m', hm', heq⟩ := List.mem_map.mp hmem
        exact (h.hub m' (hsub.subset hm')).2 heq
      · refine ⟨h.sender_mem m hm, fun hmem => ?_⟩
        obtain ⟨m', hm', heq⟩ := List.mem_map.mp hmem
        exact h.sender_ne_of_mem_erase hm hm' heq.symm
  have habsorbs := h.absorbs_sublist hsub Subset.rfl h.root_mem
    fun m' hm' => h.sender_mem m' (hsub.subset hm')
  rw [hleft] at habsorbs
  refine habsorbs.append ?_ fun m₁ hm₁ m₂ hm₂ => ?_
  · have hreply : m.reply.sender = root := (h.hub m hm).1
    have hlast : ({root, m.sender} : Finset κ).erase m.reply.sender = {m.sender} := by
      rw [hreply]
      exact erase_insert (by simpa using hne)
    refine Absorbs.cons ?_ ?_ ⟨?_, (h.fits m hm).receiver, (h.fits m hm).sender⟩
      (fun k hk hkne => ?_) (by simp) (by rw [hlast]; exact Absorbs.nil _)
    · rw [hreply]
      exact mem_insert_self ..
    · exact mem_insert_of_mem (mem_singleton_self _)
    · exact (h.fits m hm).ne.symm
    · rcases mem_insert.mp hk with rfl | hk
      · exact absurd hreply.symm hkne
      · rw [mem_singleton.mp hk, hreply, inter_comm]
        exact h.share m hm root h.root_mem hne
  · rw [List.mem_singleton.mp hm₂]
    exact h.sep_ne_of_mem_erase hm hm₁

omit [DecidableEq ι] in
theorem sep_eq_one_to_leaf (hone : ∀ m ∈ ms, b.sep m.sep = fun _ => 1) (hm : m ∈ ms) :
    ∀ m' ∈ ms.erase m ++ [m.reply], b.sep m'.sep = fun _ => 1 := by
  intro m' hm'
  rcases List.mem_append.mp hm' with hm' | hm'
  · exact hone m' (List.erase_sublist.subset hm')
  · rw [List.mem_singleton.mp hm']
    exact hone m hm

/-- The answer to `m` is the answer the hub would give had it not heard `m`,
times what it heard. -/
theorem Star.answer_eq (h : Star C S A root ms) (hb : Scoped C S b)
    (hone : ∀ m ∈ ms, b.sep m.sep = fun _ => 1) (hm : m ∈ ms) :
    marginal dom C S m.reply (passAll dom C S ms b) = fun x =>
      marginal dom C S m b x * marginal dom C S m.reply (passAll dom C S (ms.erase m) b) x := by
  have hsub : (ms.erase m).Sublist ms := List.erase_sublist
  have hhub : (passAll dom C S ms b).clique root = fun x =>
      marginal dom C S m b x * (passAll dom C S (ms.erase m) b).clique root x := by
    rw [passAll_star h.hub h.seps_nodup hone,
      passAll_star (fun m' hm' => h.hub m' (hsub.subset hm'))
        (h.seps_nodup.sublist (hsub.map _)) fun m' hm' => hone m' (hsub.subset hm')]
    funext x
    rw [((List.perm_cons_erase hm).map _).prod_eq, List.map_cons, List.prod_cons]
    exact mul_assoc _ _ _
  have hsender : m.reply.sender = root := (h.hub m hm).1
  have hdisj : Disjoint (C m.reply.sender \ S m.reply.sep) (S m.sep) := sdiff_disjoint
  have hread : DependsOn (marginal dom C S m b) (S m.sep : Set ι) := hb.marginal m
  have hmul : sumOut dom (C m.reply.sender \ S m.reply.sep) _ = _ :=
    sumOut_mul_left hread hdisj ((passAll dom C S (ms.erase m) b).clique m.reply.sender)
  calc marginal dom C S m.reply (passAll dom C S ms b)
      = sumOut dom (C m.reply.sender \ S m.reply.sep) fun x =>
          marginal dom C S m b x * (passAll dom C S (ms.erase m) b).clique m.reply.sender x := by
        rw [marginal, hsender, hhub]
    _ = fun x => marginal dom C S m b x *
          marginal dom C S m.reply (passAll dom C S (ms.erase m) b) x := hmul

end StarRuns

end Field

section Ordered

variable [Field K] [LinearOrder K] [IsStrictOrderedRing K]
variable {dom : ι → Finset β} {C : κ → Finset ι} {S : ε → Finset ι}

/-- **Exactness of the leaves.**  In a star every answered leaf holds the
marginal of the product of all cliques. -/
theorem Star.reply_exact {A : Finset κ} {root : κ} {ms : List (Message κ ε)}
    (h : Star C S A root ms) {b : Beliefs κ ε ι β K} (hb : Scoped C S b)
    (hone : ∀ m ∈ ms, b.sep m.sep = fun _ => 1) {m : Message κ ε} (hm : m ∈ ms)
    (hnonneg : ∀ x, 0 ≤ b.clique m.sender x) {x : ι → β}
    (hx : ∀ i ∈ C m.sender, x i ∈ dom i) :
    (pass dom C S m.reply (passAll dom C S ms b)).clique m.sender x =
      sumOut dom (A.biUnion C \ C m.sender) (fun x => ∏ k ∈ A, b.clique k x) x := by
  -- compare with the run that leaves `m` out before the answer
  set b' := passAll dom C S (ms.erase m) b with hb'
  have hone' : b'.sep m.sep = fun _ => 1 := by
    rw [hb', passAll_sep_of_forall_ne fun m' hm' => ?_, hone m hm]
    exact h.sep_ne_of_mem_erase hm hm'
  have hleaf : (passAll dom C S (ms.erase m ++ [m.reply]) b).clique m.sender = _ :=
    (h.absorbs_to_leaf hm).clique_root hb (sep_eq_one_to_leaf hone hm)
  have hexact := congrFun hleaf x
  rw [passAll_append, passAll_cons, passAll_nil, ← hb'] at hexact
  rw [← hexact]
  have hrun : ∀ b₀ : Beliefs κ ε ι β K, (pass dom C S m.reply b₀).clique m.sender x =
      marginal dom C S m.reply b₀ x / b₀.sep m.sep x * b₀.clique m.sender x :=
    fun b₀ => congrFun (pass_clique_receiver m.reply b₀) x
  rw [hrun, hrun, h.answer_eq hb hone hm, h.sep_eq_marginal hm,
    h.clique_leaf (List.Sublist.refl ms) hm, hone', hb',
    h.clique_leaf List.erase_sublist hm, div_one]
  by_cases hzero : marginal dom C S m b x = 0
  · have hclique : b.clique m.sender x = 0 :=
      eq_zero_of_sumOut_eq_zero hnonneg (fun i hi => hx i (mem_sdiff.mp hi).1) hzero
    rw [hclique, mul_zero, mul_zero]
  · rw [mul_div_cancel_left₀ _ hzero]

end Ordered

end JunctionBox.Propagation
