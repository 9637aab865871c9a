import JunctionBox.Foundations.Propagation
import Mathlib.Tactic.FieldSimp
import Mathlib.Tactic.Ring

/-!
# What every message preserves

The belief state represents the quotient of its cliques by its separators.  For
non-negative factors that quotient survives any message, also where a separator
is zero (`joint_pass`), and the zeros of a separator stay zeros of the cliques
at its ends (`Supported.pass`).

Two more facts serve to tell belief states apart.  Positive factors stay
positive (`Positive.passAll`), and a factor `t` on a clique that sends nothing
is carried along unchanged (`passAll_scale`).
-/

namespace JunctionBox.Propagation

open Finset SumOut

variable {ι β κ ε K : Type*} [DecidableEq ι] [DecidableEq κ] [DecidableEq ε]
variable [Field K] {dom : ι → Finset β} {C : κ → Finset ι} {S : ε → Finset ι}

/-- The represented joint: cliques over separators, `0 / 0` being `0`. -/
noncomputable def joint (A : Finset κ) (E : Finset ε) (b : Beliefs κ ε ι β K) (x : ι → β) : K :=
  (∏ k ∈ A, b.clique k x) / ∏ e ∈ E, b.sep e x

/-- `x` gives the variables of every clique one of their values. -/
def InDomain (dom : ι → Finset β) (C : κ → Finset ι) (x : ι → β) : Prop :=
  ∀ k, ∀ i ∈ C k, x i ∈ dom i

section Scale

/-- The factor of `root` multiplied by `t`. -/
def scale (root : κ) (t : K) (b : Beliefs κ ε ι β K) : Beliefs κ ε ι β K where
  clique := Function.update b.clique root fun x => t * b.clique root x
  sep := b.sep

omit [DecidableEq ι] [DecidableEq ε] in
theorem scale_clique_of_ne {root k : κ} (h : k ≠ root) (t : K) (b : Beliefs κ ε ι β K) :
    (scale root t b).clique k = b.clique k := Function.update_of_ne h ..

omit [DecidableEq ι] [DecidableEq ε] in
@[simp] theorem scale_clique_self (root : κ) (t : K) (b : Beliefs κ ε ι β K) :
    (scale root t b).clique root = fun x => t * b.clique root x := Function.update_self ..

omit [DecidableEq ι] [DecidableEq ε] in
@[simp] theorem scale_sep (root : κ) (t : K) (b : Beliefs κ ε ι β K) :
    (scale root t b).sep = b.sep := rfl

omit [DecidableEq ε] in
theorem marginal_scale_of_ne {root : κ} {m : Message κ ε} (h : m.sender ≠ root) (t : K)
    (b : Beliefs κ ε ι β K) :
    marginal dom C S m (scale root t b) = marginal dom C S m b := by
  rw [marginal, marginal, scale_clique_of_ne h]

omit [DecidableEq ε] in
/-- A message of the scaled clique itself is scaled. -/
theorem marginal_scale_self (m : Message κ ε) (t : K) (b : Beliefs κ ε ι β K) :
    marginal dom C S m (scale m.sender t b) = fun x => t * marginal dom C S m b x := by
  funext x
  rw [marginal, marginal, scale_clique_self, sumOut, sumOut, mul_sum]

/-- What hears from the scaled clique is scaled in turn. -/
theorem pass_scale_self_receiver {m : Message κ ε} (h : m.receiver ≠ m.sender) (t : K)
    (b : Beliefs κ ε ι β K) :
    (pass dom C S m (scale m.sender t b)).clique m.receiver =
      fun x => t * (pass dom C S m b).clique m.receiver x := by
  funext x
  rw [pass_clique_receiver, pass_clique_receiver, marginal_scale_self, scale_clique_of_ne h,
    scale_sep]
  ring

theorem pass_scale {root : κ} {m : Message κ ε} (h : m.sender ≠ root) (t : K)
    (b : Beliefs κ ε ι β K) :
    pass dom C S m (scale root t b) = scale root t (pass dom C S m b) := by
  have hclique : (pass dom C S m (scale root t b)).clique =
      (scale root t (pass dom C S m b)).clique := by
    funext k x
    by_cases hk : k = m.receiver
    · subst hk
      by_cases hroot : m.receiver = root
      · subst hroot
        rw [scale_clique_self, pass_clique_receiver, pass_clique_receiver, scale_clique_self,
          marginal_scale_of_ne h, scale_sep]
        ring
      · rw [pass_clique_receiver, scale_clique_of_ne hroot, scale_clique_of_ne hroot,
          pass_clique_receiver, marginal_scale_of_ne h, scale_sep]
    · rw [pass_clique_of_ne hk]
      by_cases hroot : k = root
      · subst hroot
        rw [scale_clique_self, scale_clique_self, pass_clique_of_ne hk]
      · rw [scale_clique_of_ne hroot, scale_clique_of_ne hroot, pass_clique_of_ne hk]
  have hsep : (pass dom C S m (scale root t b)).sep = (scale root t (pass dom C S m b)).sep := by
    rw [scale_sep, pass, pass, marginal_scale_of_ne h, scale_sep]
  exact congrArg₂ Beliefs.mk hclique hsep

theorem passAll_scale {root : κ} {ms : List (Message κ ε)} (h : ∀ m ∈ ms, m.sender ≠ root)
    (t : K) (b : Beliefs κ ε ι β K) :
    passAll dom C S ms (scale root t b) = scale root t (passAll dom C S ms b) := by
  induction ms generalizing b with
  | nil => rfl
  | cons m ms ih =>
      rw [passAll_cons, pass_scale (h m (List.mem_cons_self ..)),
        ih fun m' hm' => h m' (List.mem_cons_of_mem _ hm'), passAll_cons]

end Scale

section Ordered

variable [LinearOrder K] [IsStrictOrderedRing K]

structure Nonneg (b : Beliefs κ ε ι β K) : Prop where
  clique : ∀ k x, 0 ≤ b.clique k x
  sep : ∀ e x, 0 ≤ b.sep e x

omit [DecidableEq κ] [DecidableEq ε] in
theorem Nonneg.marginal {b : Beliefs κ ε ι β K} (hb : Nonneg b) (m : Message κ ε) (x : ι → β) :
    0 ≤ marginal dom C S m b x :=
  sumOut_nonneg (hb.clique m.sender) x

theorem Nonneg.pass {b : Beliefs κ ε ι β K} (hb : Nonneg b) (m : Message κ ε) :
    Nonneg (pass dom C S m b) where
  clique k x := by
    by_cases hk : k = m.receiver
    · subst hk
      rw [pass_clique_receiver]
      exact mul_nonneg (div_nonneg (hb.marginal m x) (hb.sep m.sep x)) (hb.clique _ x)
    · rw [pass_clique_of_ne hk]
      exact hb.clique k x
  sep e x := by
    by_cases he : e = m.sep
    · subst he
      rw [pass_sep_self]
      exact hb.marginal m x
    · rw [pass_sep_of_ne he]
      exact hb.sep e x

omit [DecidableEq κ] [DecidableEq ε] in
/-- A zero of the marginal is a zero of the sender. -/
theorem Nonneg.sender_eq_zero {b : Beliefs κ ε ι β K} (hb : Nonneg b) {m : Message κ ε}
    {x : ι → β} (hx : InDomain dom C x) (h : Propagation.marginal dom C S m b x = 0) :
    b.clique m.sender x = 0 :=
  eq_zero_of_sumOut_eq_zero (hb.clique m.sender)
    (fun i hi => hx m.sender i (mem_sdiff.mp hi).1) h

/-- Where a separator is zero, so are the cliques at its ends. -/
def Supported (ends : ε → κ → Prop) (b : Beliefs κ ε ι β K) (x : ι → β) : Prop :=
  ∀ e k, ends e k → b.sep e x = 0 → b.clique k x = 0

theorem Supported.pass {ends : ε → κ → Prop} {b : Beliefs κ ε ι β K} (hb : Nonneg b)
    {m : Message κ ε} (hends : ∀ k, ends m.sep k → k = m.sender ∨ k = m.receiver)
    (hne : m.sender ≠ m.receiver) {x : ι → β} (hx : InDomain dom C x)
    (h : Supported ends b x) : Supported ends (pass dom C S m b) x := by
  intro e k hk hsep
  by_cases he : e = m.sep
  · subst he
    rw [pass_sep_self] at hsep
    rcases hends k hk with rfl | rfl
    · rw [pass_clique_of_ne hne]
      exact hb.sender_eq_zero hx hsep
    · rw [pass_clique_receiver]
      simp only [hsep, zero_div, zero_mul]
  · rw [pass_sep_of_ne he] at hsep
    by_cases hrecv : k = m.receiver
    · subst hrecv
      rw [pass_clique_receiver]
      simp only [h e _ hk hsep, mul_zero]
    · rw [pass_clique_of_ne hrecv]
      exact h e k hk hsep

/-- **The represented joint is invariant** under one message. -/
theorem joint_pass {A : Finset κ} {E : Finset ε} {b : Beliefs κ ε ι β K} (hb : Nonneg b)
    {m : Message κ ε} (hs : m.sender ∈ A) (hr : m.receiver ∈ A) (he : m.sep ∈ E)
    {x : ι → β} (hx : InDomain dom C x) :
    joint A E (pass dom C S m b) x = joint A E b x := by
  have hcliques : ∏ k ∈ A, (pass dom C S m b).clique k x =
      marginal dom C S m b x / b.sep m.sep x * ∏ k ∈ A, b.clique k x := by
    have hrest : ∏ k ∈ A.erase m.receiver, (pass dom C S m b).clique k x =
        ∏ k ∈ A.erase m.receiver, b.clique k x :=
      prod_congr rfl fun k hk => by rw [pass_clique_of_ne (ne_of_mem_erase hk)]
    calc ∏ k ∈ A, (pass dom C S m b).clique k x
        = (pass dom C S m b).clique m.receiver x *
            ∏ k ∈ A.erase m.receiver, (pass dom C S m b).clique k x :=
          (mul_prod_erase A _ hr).symm
      _ = marginal dom C S m b x / b.sep m.sep x * b.clique m.receiver x *
            ∏ k ∈ A.erase m.receiver, b.clique k x := by rw [hrest, pass_clique_receiver]
      _ = marginal dom C S m b x / b.sep m.sep x * ∏ k ∈ A, b.clique k x := by
          rw [mul_assoc, mul_prod_erase A (fun k => b.clique k x) hr]
  have hseps : ∏ e ∈ E, (pass dom C S m b).sep e x =
      marginal dom C S m b x * ∏ e ∈ E.erase m.sep, b.sep e x := by
    have hrest : ∏ e ∈ E.erase m.sep, (pass dom C S m b).sep e x =
        ∏ e ∈ E.erase m.sep, b.sep e x :=
      prod_congr rfl fun e he => by rw [pass_sep_of_ne (ne_of_mem_erase he)]
    rw [← mul_prod_erase E _ he, pass_sep_self, hrest]
  rw [joint, joint, hcliques, hseps, ← mul_prod_erase E (fun e => b.sep e x) he]
  by_cases hsep : b.sep m.sep x = 0
  · simp only [hsep, div_zero, zero_mul, zero_div]
  by_cases hmarg : marginal dom C S m b x = 0
  · -- a zero message comes from a zero sender, so the old joint was zero as well
    have hprod : ∏ k ∈ A, b.clique k x = 0 := prod_eq_zero hs (hb.sender_eq_zero hx hmarg)
    simp only [hprod, mul_zero, zero_div]
  · field_simp

/-- Every factor is positive at the assignments in the domain. -/
structure Positive (dom : ι → Finset β) (C : κ → Finset ι) (b : Beliefs κ ε ι β K) :
    Prop where
  clique : ∀ k x, InDomain dom C x → 0 < b.clique k x
  sep : ∀ e x, InDomain dom C x → 0 < b.sep e x

omit [DecidableEq κ] in
theorem inDomain_of_mem_extensions {U : Finset ι} {x z : ι → β} (hx : InDomain dom C x)
    (hz : z ∈ extensions dom U x) : InDomain dom C z := by
  intro k i hi
  rw [mem_extensions] at hz
  by_cases hiU : i ∈ U
  · exact hz.1 i hiU
  · rw [hz.2 i hiU]
    exact hx k i hi

omit [DecidableEq κ] in
theorem sumOut_pos {k : κ} {U : Finset ι} (hU : U ⊆ C k) {f : (ι → β) → K}
    (hf : ∀ x, InDomain dom C x → 0 < f x) {x : ι → β} (hx : InDomain dom C x) :
    0 < sumOut dom U f x :=
  sum_pos (fun z hz => hf z (inDomain_of_mem_extensions hx hz))
    ⟨x, self_mem_extensions fun i hi => hx k i (hU hi)⟩

theorem Positive.pass {b : Beliefs κ ε ι β K} (hb : Positive dom C b) (m : Message κ ε) :
    Positive dom C (pass dom C S m b) := by
  have hmarg : ∀ x, InDomain dom C x → 0 < marginal dom C S m b x := fun x hx =>
    sumOut_pos sdiff_subset (hb.clique m.sender) hx
  refine ⟨fun k x hx => ?_, fun e x hx => ?_⟩
  · by_cases hk : k = m.receiver
    · subst hk
      rw [pass_clique_receiver]
      exact mul_pos (div_pos (hmarg x hx) (hb.sep _ x hx)) (hb.clique _ x hx)
    · rw [pass_clique_of_ne hk]
      exact hb.clique k x hx
  · by_cases he : e = m.sep
    · subst he
      rw [pass_sep_self]
      exact hmarg x hx
    · rw [pass_sep_of_ne he]
      exact hb.sep e x hx

theorem Positive.passAll (ms : List (Message κ ε)) {b : Beliefs κ ε ι β K}
    (hb : Positive dom C b) : Positive dom C (passAll dom C S ms b) := by
  induction ms generalizing b with
  | nil => exact hb
  | cons m ms ih => exact ih (hb.pass m)

end Ordered

end JunctionBox.Propagation
