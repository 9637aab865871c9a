import Mathlib.Data.List.Sort
import Mathlib.Data.Int.Order.Basic

/-!
# `qsort`

The C library promises a permutation of its input that is sorted by the
comparator, and nothing about the order of elements that compare equal.  A
`QSort` is any function that keeps this promise; every result about the program
holds for all of them.  Those that do more, and leave equal elements in their
order, are `Stable`.
-/

namespace JunctionBox

/-- A comparator as `qsort` requires it: consistent, since its sign turns when its arguments change
places, and a total preorder. -/
structure IsComparator {α : Type} (cmp : α → α → ℤ) : Prop where
  opposite : ∀ a b, (cmp b a).sign = -(cmp a b).sign
  trans : ∀ a b c, cmp a b ≤ 0 → cmp b c ≤ 0 → cmp a c ≤ 0

theorem IsComparator.total {α : Type} {cmp : α → α → ℤ} (h : IsComparator cmp) (a b : α) :
    cmp a b ≤ 0 ∨ cmp b a ≤ 0 := by
  rcases le_or_gt (cmp a b) 0 with hle | hgt
  · exact Or.inl hle
  · have hsign := h.opposite a b
    rw [Int.sign_eq_one_of_pos hgt] at hsign
    exact Or.inr (Int.sign_eq_neg_one_iff_neg.mp hsign).le

/-- `qsort`. -/
structure QSort where
  sort : {α : Type} → (α → α → ℤ) → List α → List α
  perm : ∀ {α : Type} (cmp : α → α → ℤ) (l : List α), (sort cmp l).Perm l
  sorted : ∀ {α : Type} {cmp : α → α → ℤ}, IsComparator cmp → ∀ l : List α,
    (sort cmp l).Pairwise fun a b => cmp a b ≤ 0

namespace QSort

/-- Elements that compare equal stay in their order. -/
def Stable (qsort : QSort) : Prop :=
  ∀ {α : Type} {cmp : α → α → ℤ} {l : List α} {a b : α}, IsComparator cmp → cmp a b ≤ 0 →
    [a, b].Sublist l → [a, b].Sublist (qsort.sort cmp l)

/-- A stable one. -/
def insertion : QSort where
  sort cmp l := l.insertionSort fun a b => cmp a b ≤ 0
  perm cmp l := List.perm_insertionSort (fun a b => cmp a b ≤ 0) l
  sorted {_ cmp} hcmp l :=
    haveI : Std.Total fun a b => cmp a b ≤ 0 := ⟨hcmp.total⟩
    haveI : IsTrans _ fun a b => cmp a b ≤ 0 := ⟨hcmp.trans⟩
    List.pairwise_insertionSort (fun a b => cmp a b ≤ 0) l

/-- Comparing by a key, the larger key first. -/
theorem isComparator_of_key {α : Type} (key : α → ℕ) :
    IsComparator fun a b => (key b : ℤ) - key a where
  opposite a b := by rw [← Int.sign_neg, Int.neg_sub]
  trans a b c hab hbc := by omega

end QSort

end JunctionBox
