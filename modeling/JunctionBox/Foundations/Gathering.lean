import Mathlib.Tactic.Ring
import JunctionBox.Foundations.Propagation

/-!
# Messages into one clique

Messages into `root`, each over a separator of its own, sum factors that none of
them changes.  So the belief state after them has a closed form: every separator
used holds its sender's sum, and `root` is multiplied by each ratio once
(`Inbound.clique_root`).  A message that comes again divides the sum by itself,
which is one or, where the sum is zero, a factor zero that is there already.

Hence only the set of the messages counts (`Inbound.passAll_eq`).
-/

namespace JunctionBox.Propagation

open Finset SumOut

variable {ι β κ ε K : Type*} [DecidableEq ι] [DecidableEq κ] [DecidableEq ε] [Field K]
variable {dom : ι → Finset β} {C : κ → Finset ι} {S : ε → Finset ι}

/-- Messages from elsewhere into `root`, of which no two share a separator. -/
structure Inbound (root : κ) (ms : List (Message κ ε)) : Prop where
  receiver : ∀ m ∈ ms, m.receiver = root
  sender : ∀ m ∈ ms, m.sender ≠ root
  sep_inj : ∀ m ∈ ms, ∀ m' ∈ ms, m.sep = m'.sep → m = m'

variable {root : κ} {m : Message κ ε} {ms ms' : List (Message κ ε)} {b : Beliefs κ ε ι β K}

omit [DecidableEq ι] [DecidableEq κ] [DecidableEq ε] in
theorem Inbound.tail (h : Inbound root (m :: ms)) : Inbound root ms where
  receiver m' hm' := h.receiver m' (List.mem_cons_of_mem _ hm')
  sender m' hm' := h.sender m' (List.mem_cons_of_mem _ hm')
  sep_inj m₁ hm₁ m₂ hm₂ := h.sep_inj m₁ (List.mem_cons_of_mem _ hm₁) m₂
    (List.mem_cons_of_mem _ hm₂)

/-- What a clique sends depends on that clique only. -/
theorem marginal_pass {m' : Message κ ε} (hne : m'.sender ≠ m.receiver) :
    marginal dom C S m' (pass dom C S m b) = marginal dom C S m' b := by
  unfold marginal
  rw [pass_clique_of_ne hne]

/-- Every separator used holds its sender's sum. -/
theorem Inbound.sep_mem (h : Inbound root ms) {m' : Message κ ε} (hm' : m' ∈ ms) :
    (passAll dom C S ms b).sep m'.sep = marginal dom C S m' b := by
  induction ms generalizing b with
  | nil => exact absurd hm' List.not_mem_nil
  | cons m ms ih =>
      have hsender : m'.sender ≠ m.receiver := by
        rw [h.receiver m (List.mem_cons_self ..)]
        exact h.sender m' hm'
      rw [passAll_cons]
      by_cases hlater : m' ∈ ms
      · rw [ih h.tail hlater, marginal_pass hsender]
      · obtain rfl : m' = m := (List.mem_cons.mp hm').resolve_right hlater
        rw [passAll_sep_of_forall_ne, pass_sep_self]
        intro m₁ hm₁ hsep
        have heq := h.sep_inj m' hm' m₁ (List.mem_cons_of_mem _ hm₁) hsep
        exact hlater (heq ▸ hm₁)

omit [DecidableEq ι] [DecidableEq κ] [DecidableEq ε] in
/-- A sum divided by itself changes no product with a multiple of that sum. -/
theorem div_self_mul_div (n o : K) : n / n * (n / o) = n / o := by
  by_cases hn : n = 0
  · simp [hn]
  · rw [div_self hn, one_mul]

/-- The receiver is multiplied by the ratio of every message once. -/
theorem Inbound.clique_root (h : Inbound root ms) :
    (passAll dom C S ms b).clique root =
      fun x => (∏ m ∈ ms.toFinset, marginal dom C S m b x / b.sep m.sep x) * b.clique root x := by
  induction ms generalizing b with
  | nil =>
      funext x
      rw [passAll_nil, List.toFinset_nil, prod_empty, one_mul]
  | cons m ms ih =>
      have hreceiver : m.receiver = root := h.receiver m (List.mem_cons_self ..)
      have hroot : (pass dom C S m b).clique root =
          fun x => marginal dom C S m b x / b.sep m.sep x * b.clique root x := by
        rw [← hreceiver]
        exact pass_clique_receiver m b
      have hmarginal : ∀ m' ∈ m :: ms,
          marginal dom C S m' (pass dom C S m b) = marginal dom C S m' b := fun m' hm' =>
        marginal_pass (by rw [hreceiver]; exact h.sender m' hm')
      -- the ratios of the other messages are those before `m`
      have hother : ∀ m' ∈ ms.toFinset.erase m, ∀ x,
          marginal dom C S m' (pass dom C S m b) x / (pass dom C S m b).sep m'.sep x =
            marginal dom C S m' b x / b.sep m'.sep x := by
        intro m' hm' x
        have hmem : m' ∈ m :: ms :=
          List.mem_cons_of_mem _ (List.mem_toFinset.mp (mem_of_mem_erase hm'))
        have hsep : m'.sep ≠ m.sep := fun heq =>
          ne_of_mem_erase hm' (h.sep_inj m' hmem m (List.mem_cons_self ..) heq)
        rw [hmarginal m' hmem, pass_sep_of_ne hsep]
      funext x
      rw [passAll_cons, ih h.tail, hroot, List.toFinset_cons]
      beta_reduce
      by_cases hagain : m ∈ ms.toFinset
      · rw [insert_eq_self.mpr hagain, ← mul_prod_erase _ _ hagain,
          ← mul_prod_erase ms.toFinset
            (fun m => marginal dom C S m b x / b.sep m.sep x) hagain,
          prod_congr rfl fun m' hm' => hother m' hm' x, pass_sep_self,
          hmarginal m (List.mem_cons_self ..)]
        calc
          _ = marginal dom C S m b x / marginal dom C S m b x *
                (marginal dom C S m b x / b.sep m.sep x) *
              (∏ m' ∈ ms.toFinset.erase m, marginal dom C S m' b x / b.sep m'.sep x) *
              b.clique root x := by ring
          _ = _ := by rw [div_self_mul_div]
      · rw [prod_insert hagain]
        rw [erase_eq_of_notMem hagain] at hother
        rw [prod_congr rfl fun m' hm' => hother m' hm' x]
        ring

/-- **Order and repetition do not matter.** -/
theorem Inbound.passAll_eq (h : Inbound root ms) (hmem : ∀ m, m ∈ ms ↔ m ∈ ms') :
    passAll dom C S ms b = passAll dom C S ms' b := by
  have h' : Inbound root ms' :=
    ⟨fun m hm => h.receiver m ((hmem m).mpr hm), fun m hm => h.sender m ((hmem m).mpr hm),
      fun m hm m' hm' => h.sep_inj m ((hmem m).mpr hm) m' ((hmem m').mpr hm')⟩
  have hset : ms.toFinset = ms'.toFinset := by
    ext m
    rw [List.mem_toFinset, List.mem_toFinset, hmem]
  have hclique : (passAll dom C S ms b).clique = (passAll dom C S ms' b).clique := by
    funext k
    by_cases hk : k = root
    · rw [hk, h.clique_root, h'.clique_root, hset]
    · rw [passAll_clique_of_forall_ne fun m hm => (h.receiver m hm).symm ▸ hk,
        passAll_clique_of_forall_ne fun m hm => (h'.receiver m hm).symm ▸ hk]
  have hsep : (passAll dom C S ms b).sep = (passAll dom C S ms' b).sep := by
    funext e
    by_cases he : ∃ m ∈ ms, m.sep = e
    · obtain ⟨m, hm, rfl⟩ := he
      rw [h.sep_mem hm, h'.sep_mem ((hmem m).mp hm)]
    · rw [passAll_sep_of_forall_ne fun m hm heq => he ⟨m, hm, heq.symm⟩,
        passAll_sep_of_forall_ne fun m hm heq => he ⟨m, (hmem m).mpr hm, heq.symm⟩]
  calc passAll dom C S ms b =
        ⟨(passAll dom C S ms b).clique, (passAll dom C S ms b).sep⟩ := rfl
    _ = ⟨(passAll dom C S ms' b).clique, (passAll dom C S ms' b).sep⟩ := by rw [hclique, hsep]

end JunctionBox.Propagation
