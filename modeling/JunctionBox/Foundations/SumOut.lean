import Mathlib.Algebra.BigOperators.Ring.Finset
import Mathlib.Algebra.BigOperators.Pi
import Mathlib.Algebra.Order.BigOperators.Group.Finset
import Mathlib.Data.Fintype.BigOperators
import Mathlib.Logic.Function.DependsOn
import Mathlib.Algebra.Order.Field.Basic

/-!
# Summing variables out of a factor

A factor is a function of an assignment `ι → β`; which variables it really
reads is expressed by `DependsOn`.  `sumOut dom U f` replaces `f` by its sum
over all values of the variables in `U`, variable `i` ranging over the finite
set `dom i`, and leaves the other variables alone.

The laws are those of variable elimination:

* `sumOut_union`: disjoint sets can be summed out one after the other;
* `sumOut_mul_left`: a factor that does not read `U` moves out of the sum;
* `sumOut_mul_sumOut`: two sums over separate variables are one sum of the
  product;
* `dependsOn_sumOut`: the result no longer reads `U`.
-/

namespace JunctionBox.SumOut

open Finset

variable {ι β K : Type*} [DecidableEq ι]

/-- `x` overwritten by `y` on `U`. -/
def patch (U : Finset ι) (y : ∀ i ∈ U, β) (x : ι → β) (i : ι) : β :=
  if h : i ∈ U then y i h else x i

theorem patch_of_mem {U : Finset ι} (y : ∀ i ∈ U, β) (x : ι → β) {i : ι} (h : i ∈ U) :
    patch U y x i = y i h := dif_pos h

theorem patch_of_not_mem {U : Finset ι} (y : ∀ i ∈ U, β) (x : ι → β) {i : ι} (h : i ∉ U) :
    patch U y x i = x i := dif_neg h

open Classical in
/-- The assignments that agree with `x` off `U` and give every variable of `U`
one of its values. -/
noncomputable def extensions (dom : ι → Finset β) (U : Finset ι) (x : ι → β) :
    Finset (ι → β) :=
  (U.pi dom).image fun y => patch U y x

theorem mem_extensions {dom : ι → Finset β} {U : Finset ι} {x z : ι → β} :
    z ∈ extensions dom U x ↔ (∀ i ∈ U, z i ∈ dom i) ∧ ∀ i ∉ U, z i = x i := by
  simp only [extensions, mem_image, Finset.mem_pi]
  constructor
  · rintro ⟨y, hy, rfl⟩
    refine ⟨fun i hi => ?_, fun i hi => patch_of_not_mem y x hi⟩
    rw [patch_of_mem y x hi]
    exact hy i hi
  · rintro ⟨hdom, hoff⟩
    refine ⟨fun i _ => z i, fun i hi => hdom i hi, ?_⟩
    funext i
    by_cases hi : i ∈ U
    · exact patch_of_mem _ x hi
    · rw [patch_of_not_mem _ x hi, hoff i hi]

theorem patch_injective (U : Finset ι) (x : ι → β) :
    Function.Injective fun y : ∀ i ∈ U, β => patch U y x := by
  intro y y' heq
  funext i hi
  have hpoint := congrFun heq i
  simpa only [patch_of_mem _ x hi] using hpoint

theorem self_mem_extensions {dom : ι → Finset β} {U : Finset ι} {x : ι → β}
    (h : ∀ i ∈ U, x i ∈ dom i) : x ∈ extensions dom U x :=
  mem_extensions.mpr ⟨h, fun _ _ => rfl⟩

theorem card_extensions (dom : ι → Finset β) (U : Finset ι) (x : ι → β) :
    (extensions dom U x).card = ∏ i ∈ U, (dom i).card := by
  classical
  rw [extensions, card_image_of_injective _ (patch_injective U x), Finset.card_pi]

section Semiring

variable [CommSemiring K] (dom : ι → Finset β)

/-- The sum of `f` over all assignments that extend `x` on `U`. -/
noncomputable def sumOut (U : Finset ι) (f : (ι → β) → K) (x : ι → β) : K :=
  ∑ z ∈ extensions dom U x, f z

variable {dom}

theorem sumOut_congr {U : Finset ι} {f g : (ι → β) → K} {x : ι → β}
    (h : ∀ z ∈ extensions dom U x, f z = g z) : sumOut dom U f x = sumOut dom U g x :=
  sum_congr rfl h

theorem sumOut_eq_sum_pi (U : Finset ι) (f : (ι → β) → K) (x : ι → β) :
    sumOut dom U f x = ∑ y ∈ U.pi dom, f (patch U y x) := by
  classical
  exact sum_image fun y _ y' _ heq => patch_injective U x heq

@[simp] theorem sumOut_empty (f : (ι → β) → K) : sumOut dom ∅ f = f := by
  funext x
  have hsingle : extensions dom ∅ x = {x} := by
    ext z
    simp [mem_extensions, funext_iff]
  rw [sumOut, hsingle, sum_singleton]

theorem sumOut_singleton (a : ι) (f : (ι → β) → K) (x : ι → β) :
    sumOut dom {a} f x = ∑ b ∈ dom a, f (Function.update x a b) := by
  classical
  have himage : extensions dom {a} x = (dom a).image (Function.update x a) := by
    ext z
    simp only [mem_extensions, mem_singleton, forall_eq, mem_image]
    constructor
    · rintro ⟨hdom, hoff⟩
      refine ⟨z a, hdom, ?_⟩
      funext i
      by_cases hi : i = a
      · rw [hi, Function.update_self]
      · rw [Function.update_of_ne hi, hoff i hi]
    · rintro ⟨b, hb, rfl⟩
      exact ⟨by rwa [Function.update_self], fun i hi => Function.update_of_ne hi _ _⟩
  rw [sumOut, himage, sum_image fun b _ b' _ heq => Function.update_injective x a heq]

/-- Disjoint sets of variables are summed out one after the other. -/
theorem sumOut_union {U W : Finset ι} (hdisj : Disjoint U W) (f : (ι → β) → K) :
    sumOut dom (U ∪ W) f = sumOut dom U (sumOut dom W f) := by
  classical
  funext x
  have hunion : extensions dom (U ∪ W) x =
      (extensions dom U x).biUnion fun y => extensions dom W y := by
    ext z
    simp only [mem_biUnion, mem_extensions, mem_union, not_or]
    constructor
    · rintro ⟨hdom, hoff⟩
      refine ⟨fun i => if i ∈ W then x i else z i, ⟨fun i hi => ?_, fun i hi => ?_⟩,
        fun i hi => hdom i (Or.inr hi), fun i hi => (if_neg hi).symm⟩
      · simp only [if_neg (disjoint_left.mp hdisj hi)]
        exact hdom i (Or.inl hi)
      · by_cases hiW : i ∈ W
        · exact if_pos hiW
        · simp only [if_neg hiW, hoff i ⟨hi, hiW⟩]
    · rintro ⟨y, ⟨hyU, hyoff⟩, hzW, hzoff⟩
      refine ⟨fun i hi => ?_, fun i hi => ?_⟩
      · by_cases hiW : i ∈ W
        · exact hzW i hiW
        · rw [hzoff i hiW]
          exact hyU i (hi.resolve_right hiW)
      · rw [hzoff i hi.2, hyoff i hi.1]
  rw [sumOut, hunion, sum_biUnion]
  · rfl
  · -- two extensions on `U` with a common further extension on `W` agree on `U` too
    intro y hy y' hy' hne
    rw [Function.onFun, disjoint_left]
    intro z hz hz'
    refine hne (funext fun i => ?_)
    rw [mem_coe, mem_extensions] at hy hy'
    rw [mem_extensions] at hz hz'
    by_cases hiU : i ∈ U
    · have hiW := disjoint_left.mp hdisj hiU
      rw [← hz.2 i hiW, hz'.2 i hiW]
    · rw [hy.2 i hiU, hy'.2 i hiU]

theorem sumOut_insert {a : ι} {U : Finset ι} (ha : a ∉ U) (f : (ι → β) → K) (x : ι → β) :
    sumOut dom (insert a U) f x = ∑ b ∈ dom a, sumOut dom U f (Function.update x a b) := by
  rw [insert_eq, sumOut_union (disjoint_singleton_left.mpr ha), sumOut_singleton]

omit [CommSemiring K] in
theorem eq_of_mem_extensions {U S : Finset ι} {g : (ι → β) → K}
    (hg : DependsOn g (S : Set ι)) (hdisj : Disjoint U S) {x z : ι → β}
    (hz : z ∈ extensions dom U x) : g z = g x :=
  hg fun i hi => (mem_extensions.mp hz).2 i fun hiU => disjoint_left.mp hdisj hiU hi

/-- A factor that does not read `U` moves out of the sum. -/
theorem sumOut_mul_left {U S : Finset ι} {g : (ι → β) → K} (hg : DependsOn g (S : Set ι))
    (hdisj : Disjoint U S) (f : (ι → β) → K) :
    sumOut dom U (fun z => g z * f z) = fun x => g x * sumOut dom U f x := by
  funext x
  rw [sumOut, sumOut, mul_sum]
  exact sum_congr rfl fun z hz => by rw [eq_of_mem_extensions hg hdisj hz]

theorem sumOut_mul_right {U S : Finset ι} {g : (ι → β) → K} (hg : DependsOn g (S : Set ι))
    (hdisj : Disjoint U S) (f : (ι → β) → K) :
    sumOut dom U (fun z => f z * g z) = fun x => sumOut dom U f x * g x := by
  simpa only [mul_comm] using sumOut_mul_left hg hdisj f

theorem dependsOn_sumOut {S : Finset ι} {f : (ι → β) → K} (hf : DependsOn f (S : Set ι))
    (U : Finset ι) : DependsOn (sumOut dom U f) ((S \ U : Finset ι) : Set ι) := by
  intro x y hxy
  rw [sumOut_eq_sum_pi, sumOut_eq_sum_pi]
  refine sum_congr rfl fun w _ => hf fun i hi => ?_
  by_cases hiU : i ∈ U
  · rw [patch_of_mem w x hiU, patch_of_mem w y hiU]
  · rw [patch_of_not_mem w x hiU, patch_of_not_mem w y hiU]
    exact hxy i (by simpa using ⟨hi, hiU⟩)

theorem sumOut_const (U : Finset ι) (c : K) (x : ι → β) :
    sumOut dom U (fun _ => c) x = ((∏ i ∈ U, (dom i).card : ℕ) : K) * c := by
  rw [sumOut, sum_const, card_extensions, nsmul_eq_mul]

end Semiring

section Ordered

variable [Field K] [LinearOrder K] [IsStrictOrderedRing K] {dom : ι → Finset β}

theorem sumOut_nonneg {U : Finset ι} {f : (ι → β) → K} (hf : ∀ x, 0 ≤ f x) (x : ι → β) :
    0 ≤ sumOut dom U f x :=
  sum_nonneg fun z _ => hf z

/-- A sum of non-negative entries vanishes only if the entry at `x` itself does. -/
theorem eq_zero_of_sumOut_eq_zero {U : Finset ι} {f : (ι → β) → K} (hf : ∀ x, 0 ≤ f x)
    {x : ι → β} (hx : ∀ i ∈ U, x i ∈ dom i) (h : sumOut dom U f x = 0) : f x = 0 :=
  (sum_eq_zero_iff_of_nonneg fun z _ => hf z).mp h x (self_mem_extensions hx)

end Ordered

end JunctionBox.SumOut
