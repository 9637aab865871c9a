import JunctionBox.Foundations.JointInvariant
import Mathlib.Algebra.Order.BigOperators.Ring.Finset

/-!
# Messages without division

The belief state stores one factor per separator and divides by it.  The same
state has a description without division: every direction of every separator
has a letter of its own, and sending rewrites the letter from the sender's own
factor and the letters of its other neighbours.

* `Mirrors.pass`: the two agree.  A clique is its own factor times the letters
  it has received, a separator the product of its two letters; where a letter
  is zero, `Sound` says that the factors under it are zero and stay so.
* `informed`: the letters that are final.  A letter is final once it has been
  sent with all letters that feed it final, and a run changes it no more
  (`Settled.sendAll_eq`).  Two runs agree on what is final in both
  (`Settled.eq_of_mem_informed`).
* `mem_informed_iff`: a letter is final when every route that ends with it is a
  subsequence of the run.
-/

namespace JunctionBox.Propagation

open Finset SumOut

variable {ι β κ ε K : Type*} [DecidableEq ι] [DecidableEq κ] [DecidableEq ε]

/-- The letters of a network: each has an answer, and shares its separator with nothing
but its answer. -/
structure Network (C : κ → Finset ι) (S : ε → Finset ι) (M : Finset (Message κ ε)) : Prop where
  fits : ∀ m ∈ M, Fits C S m
  reply : ∀ m ∈ M, m.reply ∈ M
  sep_eq : ∀ m ∈ M, ∀ m' ∈ M, m'.sep = m.sep → m' = m ∨ m' = m.reply

variable (M : Finset (Message κ ε))

/-- The letters that the clique `k` receives. -/
def inbound (k : κ) : Finset (Message κ ε) := M.filter fun m => m.receiver = k

/-- The letters that the sender of `m` reads to write it. -/
def feeders (m : Message κ ε) : Finset (Message κ ε) := (inbound M m.sender).erase m.reply

variable {M} {m m₀ m' : Message κ ε}

omit [DecidableEq ε] in
theorem mem_inbound {k : κ} : m ∈ inbound M k ↔ m ∈ M ∧ m.receiver = k := mem_filter

theorem mem_feeders :
    m' ∈ feeders M m ↔ m' ≠ m.reply ∧ m' ∈ M ∧ m'.receiver = m.sender := by
  rw [feeders, mem_erase, mem_inbound]

omit [DecidableEq κ] [DecidableEq ε] in
@[simp] theorem Message.reply_reply (m : Message κ ε) : m.reply.reply = m := rfl

omit [DecidableEq κ] [DecidableEq ε] in
@[simp] theorem Message.reply_sep (m : Message κ ε) : m.reply.sep = m.sep := rfl

section Network

variable {C : κ → Finset ι} {S : ε → Finset ι} (hM : Network C S M)

include hM

omit [DecidableEq ι] [DecidableEq κ] [DecidableEq ε] in
theorem Network.reply_ne (hm : m ∈ M) : m.reply ≠ m := fun heq =>
  (hM.fits m hm).ne (congrArg Message.receiver heq)

omit [DecidableEq ι] [DecidableEq ε] in
theorem Network.reply_mem_inbound (hm : m ∈ M) : m.reply ∈ inbound M m.sender :=
  mem_inbound.mpr ⟨hM.reply m hm, rfl⟩

end Network

section Letters

variable [Field K] (dom : ι → Finset β) (C : κ → Finset ι) (S : ε → Finset ι)
variable (M) (ψ : κ → (ι → β) → K)

/-- What `m` sums: the sender's own factor and the letters that feed `m`. -/
def content (μ : Message κ ε → (ι → β) → K) (m : Message κ ε) (x : ι → β) : K :=
  ψ m.sender x * ∏ m' ∈ feeders M m, μ m' x

noncomputable def write (μ : Message κ ε → (ι → β) → K) (m : Message κ ε) : (ι → β) → K :=
  sumOut dom (C m.sender \ S m.sep) (content M ψ μ m)

noncomputable def send (μ : Message κ ε → (ι → β) → K) (m : Message κ ε) :
    Message κ ε → (ι → β) → K := Function.update μ m (write M dom C S ψ μ m)

noncomputable def sendAll (ms : List (Message κ ε)) (μ : Message κ ε → (ι → β) → K) :
    Message κ ε → (ι → β) → K := ms.foldl (send M dom C S ψ) μ

/-- A clique is its factor times the letters received, a separator the product of its letters. -/
structure Mirrors (b : Beliefs κ ε ι β K) (μ : Message κ ε → (ι → β) → K) : Prop where
  clique : ∀ k x, InDomain dom C x → b.clique k x = ψ k x * ∏ m ∈ inbound M k, μ m x
  sep : ∀ m ∈ M, ∀ x, InDomain dom C x → b.sep m.sep x = μ m x * μ m.reply x

variable {M dom C S ψ} {μ μ' : Message κ ε → (ι → β) → K}

@[simp] theorem send_self : send M dom C S ψ μ m m = write M dom C S ψ μ m :=
  Function.update_self ..

theorem send_of_ne (h : m' ≠ m) : send M dom C S ψ μ m m' = μ m' := Function.update_of_ne h ..

theorem sendAll_concat (ms : List (Message κ ε)) (m : Message κ ε)
    (μ : Message κ ε → (ι → β) → K) :
    sendAll M dom C S ψ (ms ++ [m]) μ = send M dom C S ψ (sendAll M dom C S ψ ms μ) m :=
  List.foldl_concat ..

theorem sendAll_append (ms ms' : List (Message κ ε)) (μ : Message κ ε → (ι → β) → K) :
    sendAll M dom C S ψ (ms ++ ms') μ = sendAll M dom C S ψ ms' (sendAll M dom C S ψ ms μ) :=
  List.foldl_append

theorem write_congr (h : ∀ m' ∈ feeders M m, μ m' = μ' m') :
    write M dom C S ψ μ m = write M dom C S ψ μ' m := by
  have hcontent : content M ψ μ m = content M ψ μ' m := by
    funext x
    exact congrArg (ψ m.sender x * ·) (prod_congr rfl fun m' hm' => by rw [h m' hm'])
  rw [write, write, hcontent]

omit [DecidableEq ι] [DecidableEq ε] in
/-- Before anything is sent the letters are one. -/
theorem mirrors_one {b : Beliefs κ ε ι β K} (hclique : b.clique = ψ)
    (hsep : b.sep = fun _ _ => 1) : Mirrors M dom C ψ b fun _ _ => 1 where
  clique k x _ := by rw [hclique, prod_const_one, mul_one]
  sep m _ x _ := by rw [hsep, one_mul]

omit [DecidableEq ι] in
/-- The sender's clique is what `m` sums times the letter it got over the separator. -/
theorem Mirrors.clique_sender {b : Beliefs κ ε ι β K} (h : Mirrors M dom C ψ b μ)
    (hM : Network C S M) (hm : m ∈ M) {x : ι → β} (hx : InDomain dom C x) :
    b.clique m.sender x = μ m.reply x * content M ψ μ m x := by
  rw [h.clique _ x hx, ← mul_prod_erase _ (fun m => μ m x) (hM.reply_mem_inbound hm)]
  exact mul_left_comm _ _ _

end Letters

section Ordered

variable [Field K] [LinearOrder K] [IsStrictOrderedRing K]
variable {dom : ι → Finset β} {C : κ → Finset ι} {S : ε → Finset ι} {ψ : κ → (ι → β) → K}

theorem Nonneg.passAll (ms : List (Message κ ε)) {b : Beliefs κ ε ι β K} (hb : Nonneg b) :
    Nonneg (passAll dom C S ms b) := by
  induction ms generalizing b with
  | nil => exact hb
  | cons m ms ih => exact ih (hb.pass m)

/-- The factors the cliques start with. -/
structure Factors (C : κ → Finset ι) (ψ : κ → (ι → β) → K) : Prop where
  nonneg : ∀ k x, 0 ≤ ψ k x
  reads : ∀ k, DependsOn (ψ k) (C k : Set ι)

/-- Letters read their separator, and are zero only where a new one would be. -/
structure Sound (M : Finset (Message κ ε)) (dom : ι → Finset β) (C : κ → Finset ι)
    (S : ε → Finset ι) (ψ : κ → (ι → β) → K) (μ : Message κ ε → (ι → β) → K) :
    Prop where
  nonneg : ∀ m x, 0 ≤ μ m x
  reads : ∀ m ∈ M, DependsOn (μ m) (S m.sep : Set ι)
  support : ∀ m ∈ M, ∀ x, InDomain dom C x → μ m x = 0 → write M dom C S ψ μ m x = 0

variable {μ : Message κ ε → (ι → β) → K}

theorem sound_one : Sound M dom C S ψ fun _ _ => 1 where
  nonneg _ _ := zero_le_one
  reads _ _ _ _ _ := rfl
  support _ _ _ _ h := absurd h one_ne_zero

theorem Sound.content_nonneg (h : Sound M dom C S ψ μ) (hψ : Factors C ψ) (m : Message κ ε)
    (x : ι → β) : 0 ≤ content M ψ μ m x :=
  mul_nonneg (hψ.nonneg _ x) (prod_nonneg fun m' _ => h.nonneg m' x)

omit [IsStrictOrderedRing K] in
/-- Where a letter is zero it stays zero. -/
theorem Sound.send_eq_zero (h : Sound M dom C S ψ μ) (hm : m ∈ M) {x : ι → β}
    (hx : InDomain dom C x) (hzero : μ m x = 0) : send M dom C S ψ μ m₀ m x = 0 := by
  by_cases heq : m = m₀
  · subst heq
    rw [send_self]
    exact h.support m hm x hx hzero
  · rw [send_of_ne heq, hzero]

/-- And so does what it feeds. -/
theorem Sound.write_send_eq_zero (h : Sound M dom C S ψ μ) (hψ : Factors C ψ) {x : ι → β}
    (hx : InDomain dom C x) (hzero : write M dom C S ψ μ m x = 0) :
    write M dom C S ψ (send M dom C S ψ μ m₀) m x = 0 := by
  have hterms := (sum_eq_zero_iff_of_nonneg fun z _ => h.content_nonneg hψ m z).mp hzero
  refine sum_eq_zero fun z hz => ?_
  rcases mul_eq_zero.mp (hterms z hz) with hown | hletters
  · exact mul_eq_zero.mpr (Or.inl hown)
  · obtain ⟨m', hm', hfeeder⟩ := prod_eq_zero_iff.mp hletters
    refine mul_eq_zero.mpr (Or.inr (prod_eq_zero hm' ?_))
    exact h.send_eq_zero (mem_feeders.mp hm').2.1 (inDomain_of_mem_extensions hx hz) hfeeder

theorem Sound.send (h : Sound M dom C S ψ μ) (hψ : Factors C ψ) (hM : Network C S M)
    (hm₀ : m₀ ∈ M) : Sound M dom C S ψ (send M dom C S ψ μ m₀) where
  nonneg m x := by
    by_cases heq : m = m₀
    · subst heq
      rw [send_self]
      exact sumOut_nonneg (h.content_nonneg hψ m) x
    · rw [send_of_ne heq]
      exact h.nonneg m x
  reads m hm := by
    by_cases heq : m = m₀
    · subst heq
      rw [send_self]
      have hcontent : DependsOn (content M ψ μ m) (C m.sender : Set ι) := by
        intro x y hxy
        refine congrArg₂ (· * ·) (hψ.reads _ hxy) (prod_congr rfl fun m' hm' => ?_)
        obtain ⟨-, hm', hreceiver⟩ := mem_feeders.mp hm'
        exact h.reads m' hm' fun i hi => hxy i (hreceiver ▸ (hM.fits m' hm').receiver hi)
      refine (dependsOn_sumOut hcontent _).mono fun i hi => ?_
      rw [mem_coe, mem_sdiff, mem_sdiff, not_and, not_not] at hi
      exact hi.2 hi.1
    · rw [send_of_ne heq]
      exact h.reads m hm
  support m hm x hx hzero := by
    by_cases heq : m = m₀
    · subst heq
      rw [send_self] at hzero
      exact h.write_send_eq_zero hψ hx hzero
    · rw [send_of_ne heq] at hzero
      exact h.write_send_eq_zero hψ hx (h.support m hm x hx hzero)

variable {b : Beliefs κ ε ι β K}

omit [IsStrictOrderedRing K] in
/-- What goes over the separator: the letter written, times the letter received over it. -/
theorem Mirrors.marginal (h : Mirrors M dom C ψ b μ) (hμ : Sound M dom C S ψ μ)
    (hM : Network C S M) (hm : m ∈ M) {x : ι → β} (hx : InDomain dom C x) :
    marginal dom C S m b x = μ m.reply x * write M dom C S ψ μ m x := by
  have hreads : DependsOn (μ m.reply) (S m.sep : Set ι) := hμ.reads _ (hM.reply m hm)
  calc Propagation.marginal dom C S m b x
      = sumOut dom (C m.sender \ S m.sep) (fun z => μ m.reply z * content M ψ μ m z) x :=
        sumOut_congr fun z hz => h.clique_sender hM hm (inDomain_of_mem_extensions hx hz)
    _ = μ m.reply x * write M dom C S ψ μ m x :=
        congrFun (sumOut_mul_left hreads sdiff_disjoint _) x

/-- **One message.**  Dividing by the old separator replaces the letter. -/
theorem Mirrors.pass (h : Mirrors M dom C ψ b μ) (hμ : Sound M dom C S ψ μ) (hψ : Factors C ψ)
    (hM : Network C S M) (hm : m ∈ M) :
    Mirrors M dom C ψ (pass dom C S m b) (send M dom C S ψ μ m) where
  clique k x hx := by
    by_cases hk : k = m.receiver
    · subst hk
      have hinbound : m ∈ inbound M m.receiver := mem_inbound.mpr ⟨hm, rfl⟩
      have hothers : ∏ m' ∈ (inbound M m.receiver).erase m, Propagation.send M dom C S ψ μ m m' x =
          ∏ m' ∈ (inbound M m.receiver).erase m, μ m' x :=
        prod_congr rfl fun m' hm' => by rw [send_of_ne (ne_of_mem_erase hm')]
      have hclique : b.clique m.receiver x = μ m x * content M ψ μ m.reply x :=
        h.clique_sender hM (hM.reply m hm) hx
      have hcontent : content M ψ μ m.reply x =
          ψ m.receiver x * ∏ m' ∈ (inbound M m.receiver).erase m, μ m' x := rfl
      rw [pass_clique_receiver]
      beta_reduce
      rw [h.marginal hμ hM hm hx, h.sep m hm x hx, hclique,
        ← mul_prod_erase _ _ hinbound, send_self, hothers, mul_left_comm (ψ m.receiver x),
        ← hcontent]
      by_cases hzero : μ m x = 0
      · rw [hμ.support m hm x hx hzero, hzero, zero_mul, zero_mul, mul_zero]
      by_cases hreply : μ m.reply x = 0
      · -- the receiver once answered with a zero, so nothing is left of it
        have hnothing : content M ψ μ m.reply x = 0 :=
          eq_zero_of_sumOut_eq_zero (hμ.content_nonneg hψ m.reply)
            (fun i hi => hx _ i (mem_sdiff.mp hi).1)
            (hμ.support _ (hM.reply m hm) x hx hreply)
        rw [hnothing, mul_zero, mul_zero, mul_zero]
      · field_simp
    · have hsame : ∀ m' ∈ inbound M k, Propagation.send M dom C S ψ μ m m' x = μ m' x := by
        intro m' hm'
        rw [send_of_ne]
        rintro rfl
        exact hk (mem_inbound.mp hm').2.symm
      rw [pass_clique_of_ne hk, h.clique k x hx, prod_congr rfl hsame]
  sep m' hm' x hx := by
    by_cases hsep : m'.sep = m.sep
    · rw [hsep, pass_sep_self, h.marginal hμ hM hm hx]
      rcases hM.sep_eq m hm m' hm' hsep with rfl | rfl
      · rw [send_self, send_of_ne (hM.reply_ne hm), mul_comm]
      · rw [send_of_ne (hM.reply_ne hm), Message.reply_reply, send_self]
    · have hne : m' ≠ m := fun heq => hsep (congrArg Message.sep heq)
      have hreply : m'.reply ≠ m := by
        rintro rfl
        exact hsep rfl
      rw [pass_sep_of_ne hsep, h.sep m' hm' x hx, send_of_ne hne, send_of_ne hreply]

/-- **A run of messages is a run of letters.** -/
theorem Mirrors.passAll (hψ : Factors C ψ) (hM : Network C S M) {ms : List (Message κ ε)}
    (hms : ∀ m ∈ ms, m ∈ M) (h : Mirrors M dom C ψ b μ) (hμ : Sound M dom C S ψ μ) :
    Mirrors M dom C ψ (passAll dom C S ms b) (sendAll M dom C S ψ ms μ) ∧
      Sound M dom C S ψ (sendAll M dom C S ψ ms μ) := by
  induction ms generalizing b μ with
  | nil => exact ⟨h, hμ⟩
  | cons m ms ih =>
      have hm := hms m (List.mem_cons_self ..)
      exact ih (fun m' hm' => hms m' (List.mem_cons_of_mem _ hm')) (h.pass hμ hψ hM hm)
        (hμ.send hψ hM hm)

end Ordered

/-! ## What is final -/

section Informed

variable (M)

/-- Sending `m` makes its letter final if the letters that feed it are. -/
def inform (I : Finset (Message κ ε)) (m : Message κ ε) : Finset (Message κ ε) :=
  if feeders M m ⊆ I then insert m I else I

/-- The letters that are final after the run `ms`. -/
def informed (ms : List (Message κ ε)) : Finset (Message κ ε) := ms.foldl (inform M) ∅

variable {M} {I : Finset (Message κ ε)} {ms : List (Message κ ε)}

theorem informed_concat (ms : List (Message κ ε)) (m : Message κ ε) :
    informed M (ms ++ [m]) = inform M (informed M ms) m := List.foldl_concat ..

theorem subset_inform (I : Finset (Message κ ε)) (m : Message κ ε) : I ⊆ inform M I m := by
  unfold inform
  split
  · exact subset_insert m I
  · exact Subset.rfl

theorem mem_inform_iff : m ∈ inform M I m₀ ↔ m ∈ I ∨ m = m₀ ∧ feeders M m₀ ⊆ I := by
  unfold inform
  split
  case isTrue hfed => rw [mem_insert, or_comm, and_iff_left hfed]
  case isFalse hfed => rw [or_iff_left fun h => hfed h.2]

/-- What feeds a final letter is final. -/
theorem feeders_subset_inform (hclosed : ∀ m ∈ I, feeders M m ⊆ I) :
    ∀ m ∈ inform M I m₀, feeders M m ⊆ inform M I m₀ := by
  intro m hm
  rcases mem_inform_iff.mp hm with hm | ⟨rfl, hfed⟩
  · exact (hclosed m hm).trans (subset_inform I m₀)
  · exact hfed.trans (subset_inform I m)

theorem feeders_subset_informed (ms : List (Message κ ε)) :
    ∀ m ∈ informed M ms, feeders M m ⊆ informed M ms := by
  induction ms using List.reverseRecOn with
  | nil => exact fun m hm => absurd hm (notMem_empty m)
  | append_singleton ms m₀ ih =>
      rw [informed_concat]
      exact feeders_subset_inform ih

variable [Field K] {dom : ι → Finset β} {C : κ → Finset ι} {S : ε → Finset ι}
variable {ψ : κ → (ι → β) → K} {μ μ' : Message κ ε → (ι → β) → K}

/-- The letters in `I` would not change if they were sent again. -/
structure Settled (M : Finset (Message κ ε)) (dom : ι → Finset β) (C : κ → Finset ι)
    (S : ε → Finset ι) (ψ : κ → (ι → β) → K) (I : Finset (Message κ ε))
    (μ : Message κ ε → (ι → β) → K) : Prop where
  closed : ∀ m ∈ I, feeders M m ⊆ I
  fixed : ∀ m ∈ I, μ m = write M dom C S ψ μ m

/-- Sending a final letter changes nothing. -/
theorem Settled.send_eq (h : Settled M dom C S ψ I μ) (hm : m ∈ I) :
    send M dom C S ψ μ m = μ := by
  unfold Propagation.send
  rw [← h.fixed m hm]
  exact Function.update_eq_self m μ

theorem Settled.sendAll_eq (h : Settled M dom C S ψ I μ) (hms : ∀ m ∈ ms, m ∈ I) :
    sendAll M dom C S ψ ms μ = μ := by
  induction ms with
  | nil => rfl
  | cons m ms ih =>
      have hstep : sendAll M dom C S ψ (m :: ms) μ =
          sendAll M dom C S ψ ms (Propagation.send M dom C S ψ μ m) := rfl
      rw [hstep, h.send_eq (hms m (List.mem_cons_self ..))]
      exact ih fun m' hm' => hms m' (List.mem_cons_of_mem _ hm')

theorem Settled.send (h : Settled M dom C S ψ I μ) (m₀ : Message κ ε) :
    Settled M dom C S ψ (inform M I m₀) (send M dom C S ψ μ m₀) where
  closed := feeders_subset_inform h.closed
  fixed m hm := by
    by_cases hold : m₀ ∈ I
    · have hmem : m ∈ I := by
        rcases mem_inform_iff.mp hm with hm | ⟨rfl, -⟩
        · exact hm
        · exact hold
      rw [h.send_eq hold]
      exact h.fixed m hmem
    · -- a letter that is new feeds none of the old ones
      have hfed : feeders M m ⊆ I := by
        rcases mem_inform_iff.mp hm with hm | ⟨rfl, hfed⟩
        · exact h.closed m hm
        · exact hfed
      have hsame : ∀ m' ∈ feeders M m, Propagation.send M dom C S ψ μ m₀ m' = μ m' :=
        fun m' hm' => send_of_ne fun heq => hold (heq ▸ hfed hm')
      rw [write_congr hsame]
      rcases mem_inform_iff.mp hm with hI | ⟨rfl, -⟩
      · have hne : m ≠ m₀ := by
          rintro rfl
          exact hold hI
        rw [send_of_ne hne]
        exact h.fixed m hI
      · exact send_self

/-- **Runs settle what they inform.** -/
theorem settled_sendAll (ms : List (Message κ ε)) (μ : Message κ ε → (ι → β) → K) :
    Settled M dom C S ψ (informed M ms) (sendAll M dom C S ψ ms μ) := by
  induction ms using List.reverseRecOn with
  | nil => exact ⟨fun m hm => absurd hm (notMem_empty m), fun m hm => absurd hm (notMem_empty m)⟩
  | append_singleton ms m ih =>
      rw [informed_concat, sendAll_concat]
      exact ih.send m

/-- Final letters depend on nothing but the factors. -/
theorem Settled.eq_of_mem_informed (h : Settled M dom C S ψ I μ') (ms : List (Message κ ε))
    (μ : Message κ ε → (ι → β) → K) :
    ∀ m ∈ informed M ms, m ∈ I → sendAll M dom C S ψ ms μ m = μ' m := by
  induction ms using List.reverseRecOn with
  | nil => exact fun m hm => absurd hm (notMem_empty m)
  | append_singleton ms m₀ ih =>
      intro m hm hI
      rw [informed_concat] at hm
      rw [sendAll_concat]
      by_cases heq : m = m₀
      · subst heq
        have hfed : feeders M m ⊆ informed M ms := by
          rcases mem_inform_iff.mp hm with hm | ⟨-, hfed⟩
          · exact feeders_subset_informed ms m hm
          · exact hfed
        rw [send_self, h.fixed m hI]
        exact write_congr fun m' hm' => ih m' (hfed hm') (h.closed m hI hm')
      · rw [send_of_ne heq]
        exact ih m ((mem_inform_iff.mp hm).resolve_right fun hnew => heq hnew.1) hI

end Informed

/-! ## Routes -/

section Routes

/-- `m'` is sent on by the receiver of `m`, not back to the sender. -/
def Feeds (m m' : Message κ ε) : Prop := m.receiver = m'.sender ∧ m ≠ m'.reply

/-- Letters that carry something on from clique to clique. -/
structure IsRoute (M : Finset (Message κ ε)) (p : List (Message κ ε)) : Prop where
  mem : ∀ m ∈ p, m ∈ M
  chain : p.IsChain Feeds

variable {ms p : List (Message κ ε)}

omit [DecidableEq κ] [DecidableEq ε] in
theorem isRoute_singleton (hm : m ∈ M) : IsRoute M [m] :=
  ⟨fun _ hm' => List.mem_singleton.mp hm' ▸ hm, List.IsChain.singleton m⟩

omit [DecidableEq κ] [DecidableEq ε] in
theorem isRoute_concat_concat :
    IsRoute M (p ++ [m'] ++ [m]) ↔ IsRoute M (p ++ [m']) ∧ m ∈ M ∧ Feeds m' m := by
  have hlast : (p ++ [m']).getLast? = some m' := List.getLast?_concat ..
  constructor
  · rintro ⟨hmem, hchain⟩
    rw [List.isChain_append] at hchain
    exact ⟨⟨fun m₁ hm₁ => hmem m₁ (List.mem_append_left _ hm₁), hchain.1⟩,
      hmem m (List.mem_append_right _ (List.mem_singleton_self m)),
      hchain.2.2 m' hlast m rfl⟩
  · rintro ⟨⟨hmem, hchain⟩, hm, hfeeds⟩
    refine ⟨fun m₁ hm₁ => ?_, List.isChain_append.mpr ⟨hchain, List.IsChain.singleton m, ?_⟩⟩
    · rcases List.mem_append.mp hm₁ with hm₁ | hm₁
      · exact hmem m₁ hm₁
      · exact List.mem_singleton.mp hm₁ ▸ hm
    · intro m₁ hm₁ m₂ hm₂
      obtain rfl : m' = m₁ := Option.some.inj (hlast.symm.trans hm₁)
      obtain rfl : m = m₂ := Option.some.inj hm₂
      exact hfeeds

/-- Only the last letter can use the last place of a run. -/
theorem sublist_of_concat_ne {α : Type*} {p l : List α} {a b : α}
    (h : (p ++ [a]).Sublist (l ++ [b])) (hne : a ≠ b) : (p ++ [a]).Sublist l := by
  rw [List.sublist_append_iff] at h
  obtain ⟨l₁, l₂, heq, h₁, h₂⟩ := h
  rcases List.eq_nil_or_concat' l₂ with rfl | ⟨l₃, c, rfl⟩
  · rw [heq, List.append_nil]
    exact h₁
  · rw [← List.append_assoc] at heq
    obtain ⟨-, hac⟩ := List.append_inj' heq rfl
    obtain rfl : a = c := List.singleton_inj.mp hac
    exact absurd (List.mem_singleton.mp (h₂.subset (List.mem_append_right _
      (List.mem_singleton_self a)))) hne

/-- **A letter is final when every route to it has been run through in order.** -/
theorem mem_informed_iff (hm : m ∈ M) :
    m ∈ informed M ms ↔ ∀ p, IsRoute M (p ++ [m]) → (p ++ [m]).Sublist ms := by
  constructor
  · intro hmem p hp
    induction ms using List.reverseRecOn generalizing m p with
    | nil => exact absurd hmem (notMem_empty m)
    | append_singleton ms m₀ ih =>
        rw [informed_concat] at hmem
        rcases mem_inform_iff.mp hmem with hold | ⟨rfl, hfed⟩
        · exact (ih hm hold p hp).trans (List.sublist_append_left ms [m₀])
        rcases List.eq_nil_or_concat' p with rfl | ⟨q, m', rfl⟩
        · exact List.sublist_append_right ms [m]
        · obtain ⟨hq, -, hfeeds⟩ := isRoute_concat_concat.mp hp
          have hm' : m' ∈ M := hq.mem m' (List.mem_append_right _ (List.mem_singleton_self m'))
          have hfeeder : m' ∈ feeders M m := mem_feeders.mpr ⟨hfeeds.2, hm', hfeeds.1⟩
          exact List.Sublist.append (ih hm' (hfed hfeeder) q hq) (List.Sublist.refl [m])
  · intro hroutes
    induction ms using List.reverseRecOn generalizing m with
    | nil =>
        have hnil := hroutes [] (isRoute_singleton hm)
        exact absurd (List.sublist_nil.mp hnil) (List.cons_ne_nil m [])
    | append_singleton ms m₀ ih =>
        rw [informed_concat]
        by_cases heq : m = m₀
        · subst heq
          refine mem_inform_iff.mpr (Or.inr ⟨rfl, fun m' hm' => ?_⟩)
          obtain ⟨hne, hmem, hreceiver⟩ := mem_feeders.mp hm'
          refine ih hmem fun q hq => ?_
          have hext := hroutes (q ++ [m']) (isRoute_concat_concat.mpr ⟨hq, hm, hreceiver, hne⟩)
          exact (List.append_sublist_append_right [m]).mp hext
        · refine subset_inform _ _ (ih hm fun p hp => ?_)
          exact sublist_of_concat_ne (hroutes p hp) heq

end Routes

end JunctionBox.Propagation
