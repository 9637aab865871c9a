import Mathlib.Algebra.BigOperators.Group.List.Basic
import Mathlib.Data.Int.ModEq
import Mathlib.Tactic.Ring

/-!
# The `int` of C

A 32-bit two's complement `int` is an integer in the range of that type.  What
does not fit wraps around, and a quotient truncates towards zero and has no
value when the divisor is zero.

A product computed factor by factor is the exact product wrapped once
(`foldl_mul`), so it is exact if and only if the exact product fits
(`wrap_eq_self_iff`).
-/

namespace JunctionBox.CInt

/-- `INT_MAX`. -/
def intMax : ℤ := 2 ^ 31 - 1

/-- What an `int` keeps of `x`. -/
def wrap (x : ℤ) : ℤ := x.bmod (2 ^ 32)

def add (a b : ℤ) : ℤ := wrap (a + b)

def sub (a b : ℤ) : ℤ := wrap (a - b)

def mul (a b : ℤ) : ℤ := wrap (a * b)

/-- `a / b`; a division by zero has no result. -/
def div (a b : ℤ) : Option ℤ := if b = 0 then none else some (wrap (a.tdiv b))

theorem wrap_le (x : ℤ) : wrap x ≤ intMax := by
  have hlt := Int.bmod_lt (x := x) (m := 2 ^ 32) (by decide)
  unfold wrap intMax
  norm_num at hlt ⊢
  omega

theorem wrap_eq_self {x : ℤ} (hpos : 0 ≤ x) (hle : x ≤ intMax) : wrap x = x := by
  unfold intMax at hle
  refine Int.bmod_eq_of_le ?_ ?_ <;> norm_num <;> omega

/-- A number that is not negative survives if and only if it fits. -/
theorem wrap_eq_self_iff {x : ℤ} (hpos : 0 ≤ x) : wrap x = x ↔ x ≤ intMax :=
  ⟨fun h => h ▸ wrap_le x, wrap_eq_self hpos⟩

/-- The difference of two numbers that are not negative does not overflow. -/
theorem sub_natCast {a b : ℕ} (ha : (a : ℤ) ≤ intMax) (hb : (b : ℤ) ≤ intMax) :
    sub a b = (a : ℤ) - b := by
  unfold intMax at ha hb
  refine Int.bmod_eq_of_le ?_ ?_ <;> norm_num <;> omega

theorem mul_wrap_left (a b : ℤ) : mul (wrap a) b = wrap (a * b) := Int.bmod_mul_bmod

/-- A running product. -/
theorem foldl_mul (factors : List ℕ) (start : ℕ) :
    factors.foldl (fun product (factor : ℕ) => mul product factor) (wrap start) =
      wrap ((start * factors.prod : ℕ) : ℤ) := by
  induction factors generalizing start with
  | nil => rw [List.foldl_nil, List.prod_nil, Nat.mul_one]
  | cons factor factors ih =>
      rw [List.foldl_cons, mul_wrap_left, ← Nat.cast_mul, ih, List.prod_cons, Nat.mul_assoc]

/-- A quotient of natural numbers. -/
theorem div_natCast {a b : ℕ} (hb : b ≠ 0) (ha : (a : ℤ) ≤ intMax) :
    div a b = some ((a / b : ℕ) : ℤ) := by
  have hle : ((a / b : ℕ) : ℤ) ≤ intMax :=
    le_trans (Int.ofNat_le.mpr (Nat.div_le_self a b)) ha
  unfold div
  rw [if_neg (Int.natCast_ne_zero.mpr hb), Int.tdiv_eq_ediv_of_nonneg (Int.natCast_nonneg a),
    ← Int.natCast_div, wrap_eq_self (Int.natCast_nonneg _) hle]

end JunctionBox.CInt
