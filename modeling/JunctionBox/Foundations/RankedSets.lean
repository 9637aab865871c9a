import JunctionBox.Foundations.SpanningTree
import Mathlib.Data.Nat.Log

/-!
# Ranks of a merged partition

Parts of a partition are merged two at a time, and nodes carry ranks.  When the
rank of a node rises only as its part is merged with another that holds a node
of the same rank, a part with a node of rank `r` has at least `2 ^ r` nodes.
Every rise that comes without such a merger is slack: it costs a factor of two
(`Balanced.bump`), and the rank of a node exceeds the logarithm of the size of
its part by the slack at most (`Balanced.rank_le`).
-/

namespace JunctionBox.RankedSets

open Hypertree

variable {κ : Type} [DecidableEq κ] {nodes : Finset κ} {comp comp' : κ → κ} {rank rank' : κ → ℕ}
  {slack : ℕ} {x y : κ}

/-- The part of `x`. -/
def part (nodes : Finset κ) (comp : κ → κ) (x : κ) : Finset κ :=
  nodes.filter fun y => comp y = comp x

/-- Up to the slack, a rank is paid for by the size of the part. -/
def Balanced (nodes : Finset κ) (comp : κ → κ) (rank : κ → ℕ) (slack : ℕ) : Prop :=
  ∀ x ∈ nodes, 2 ^ rank x ≤ 2 ^ slack * (part nodes comp x).card

theorem mem_part : y ∈ part nodes comp x ↔ y ∈ nodes ∧ comp y = comp x := Finset.mem_filter

/-- A rank exceeds the logarithm of the size of the part by the slack at most. -/
theorem Balanced.rank_le (h : Balanced nodes comp rank slack) (hx : x ∈ nodes) :
    rank x ≤ Nat.log 2 (part nodes comp x).card + slack := by
  have hpos : (part nodes comp x).card ≠ 0 :=
    Finset.card_ne_zero.mpr ⟨x, mem_part.mpr ⟨hx, rfl⟩⟩
  have hlt : 2 ^ rank x < 2 ^ (Nat.log 2 (part nodes comp x).card + slack + 1) := by
    calc 2 ^ rank x ≤ 2 ^ slack * (part nodes comp x).card := h x hx
      _ < 2 ^ slack * 2 ^ (Nat.log 2 (part nodes comp x).card + 1) :=
          Nat.mul_lt_mul_of_pos_left (Nat.lt_pow_succ_log_self Nat.one_lt_two _)
            (Nat.two_pow_pos slack)
      _ = 2 ^ (Nat.log 2 (part nodes comp x).card + slack + 1) := by
          rw [← pow_add]
          congr 1
          omega
  have := (Nat.pow_lt_pow_iff_right Nat.one_lt_two).mp hlt
  omega

/-- Only the partition counts, not the representatives. -/
theorem Balanced.congr (h : Balanced nodes comp rank slack)
    (hcomp : ∀ a ∈ nodes, ∀ b ∈ nodes, comp a = comp b ↔ comp' a = comp' b)
    (hrank : ∀ a ∈ nodes, rank' a = rank a) : Balanced nodes comp' rank' slack := by
  intro x hx
  have hpart : part nodes comp' x = part nodes comp x :=
    Finset.filter_congr fun a ha => (hcomp a ha x hx).symm
  rw [hpart, hrank x hx]
  exact h x hx

/-- A node of rank zero, in a part of its own. -/
theorem Balanced.insert (h : Balanced nodes comp rank slack) (hx : x ∉ nodes) :
    Balanced (insert x nodes) (Function.update comp x x) (Function.update rank x 0) slack := by
  intro z hz
  by_cases hzx : z = x
  · subst hzx
    have hpos : 0 < (part (Insert.insert z nodes) (Function.update comp z z) z).card :=
      Finset.card_pos.mpr ⟨z, mem_part.mpr ⟨Finset.mem_insert_self .., rfl⟩⟩
    rw [Function.update_self, pow_zero]
    exact Nat.mul_pos (Nat.two_pow_pos slack) hpos
  · have hz := Finset.mem_of_mem_insert_of_ne hz hzx
    rw [Function.update_of_ne hzx]
    refine (h z hz).trans (Nat.mul_le_mul_left _ (Finset.card_le_card fun a ha => ?_))
    obtain ⟨ha, hcomp⟩ := mem_part.mp ha
    have hax : a ≠ x := fun heq => hx (heq ▸ ha)
    rw [mem_part, Function.update_of_ne hax, Function.update_of_ne hzx]
    exact ⟨Finset.mem_insert_of_mem ha, hcomp⟩

/-- A rank that rises without a merger. -/
theorem Balanced.bump (h : Balanced nodes comp rank slack)
    (hrank : ∀ a ∈ nodes, rank' a ≤ rank a + 1) : Balanced nodes comp rank' (slack + 1) := by
  intro x hx
  calc 2 ^ rank' x ≤ 2 ^ (rank x + 1) := Nat.pow_le_pow_right Nat.two_pos (hrank x hx)
    _ = 2 * 2 ^ rank x := pow_succ' ..
    _ ≤ 2 * (2 ^ slack * (part nodes comp x).card) := Nat.mul_le_mul_left _ (h x hx)
    _ = 2 ^ (slack + 1) * (part nodes comp x).card := by rw [pow_succ', Nat.mul_assoc]

theorem part_subset_merge (z : κ) : part nodes comp z ⊆ part nodes (merge comp x y) z := by
  intro a ha
  obtain ⟨ha, hcomp⟩ := mem_part.mp ha
  exact mem_part.mpr ⟨ha, (merge_eq_iff ..).mpr (Or.inl hcomp)⟩

/-- Two parts become one, and the rank of `y` may rise above that of `x` by one. -/
theorem Balanced.merge (h : Balanced nodes comp rank slack) (hx : x ∈ nodes) (hy : y ∈ nodes)
    (hne : comp x ≠ comp y) (hrank : ∀ a ∈ nodes, a ≠ y → rank' a = rank a)
    (hrise : rank' y ≤ rank y ∨ rank x = rank y ∧ rank' y = rank y + 1) :
    Balanced nodes (merge comp x y) rank' slack := by
  have hgrow : ∀ z, (part nodes comp z).card ≤ (part nodes (Hypertree.merge comp x y) z).card :=
    fun z => Finset.card_le_card (part_subset_merge z)
  intro z hz
  by_cases hzy : z = y
  · subst hzy
    rcases hrise with hle | ⟨heq, hsucc⟩
    · calc 2 ^ rank' z ≤ 2 ^ rank z := Nat.pow_le_pow_right Nat.two_pos hle
        _ ≤ 2 ^ slack * (part nodes comp z).card := h z hz
        _ ≤ _ := Nat.mul_le_mul_left _ (hgrow z)
    · have hdisjoint : Disjoint (part nodes comp x) (part nodes comp z) := by
        rw [Finset.disjoint_left]
        intro a ha hb
        exact hne ((mem_part.mp ha).2.symm.trans (mem_part.mp hb).2)
      have hunion : part nodes comp x ∪ part nodes comp z ⊆
          part nodes (Hypertree.merge comp x z) z := by
        refine Finset.union_subset (fun a ha => ?_) (part_subset_merge z)
        obtain ⟨ha, hcomp⟩ := mem_part.mp ha
        exact mem_part.mpr ⟨ha, (merge_eq_iff ..).mpr (Or.inr (Or.inl ⟨hcomp, rfl⟩))⟩
      calc 2 ^ rank' z = 2 ^ rank x + 2 ^ rank z := by rw [hsucc, heq, pow_succ]; omega
        _ ≤ 2 ^ slack * (part nodes comp x).card + 2 ^ slack * (part nodes comp z).card :=
            Nat.add_le_add (h x hx) (h z hz)
        _ = 2 ^ slack * (part nodes comp x ∪ part nodes comp z).card := by
            rw [Finset.card_union_of_disjoint hdisjoint, Nat.mul_add]
        _ ≤ _ := Nat.mul_le_mul_left _ (Finset.card_le_card hunion)
  · rw [hrank z hz hzy]
    exact (h z hz).trans (Nat.mul_le_mul_left _ (hgrow z))

end JunctionBox.RankedSets
