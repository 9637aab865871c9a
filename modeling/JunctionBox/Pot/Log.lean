import JunctionBox.Pot.Plain
import JunctionBox.Pot.Transport
import Mathlib.Algebra.Order.Positive.Field
import Mathlib.Analysis.SpecialFunctions.Log.Basic

/-!
# Log arithmetic

The functions with `Log` in their name work on logarithms.  `Extended α` adds the
values that the `double`s of the source have besides the numbers: the two
infinities, and NaN, the result of `-∞ - -∞`.  `ExpLog K L` is what the source
relies on about `exp` and `log`.

`homLog` says that the logarithm carries the plain arithmetic to this one on
non-negative numbers, except where a ratio divides by zero: `MessagePass` has a
branch for that, `MessagePassLog` has none.
-/

namespace JunctionBox

/-- A number, an infinity or NaN. -/
inductive Extended (α : Type) where
  | nan
  | negInf
  | fin (a : α)
  | posInf
deriving DecidableEq

namespace Extended

variable {α : Type}

/-- `p + q`. -/
def add [Add α] : Extended α → Extended α → Extended α
  | nan, _ => nan
  | _, nan => nan
  | negInf, posInf => nan
  | posInf, negInf => nan
  | negInf, _ => negInf
  | _, negInf => negInf
  | posInf, _ => posInf
  | _, posInf => posInf
  | fin a, fin b => fin (a + b)

def neg [Neg α] : Extended α → Extended α
  | nan => nan
  | negInf => posInf
  | fin a => fin (-a)
  | posInf => negInf

/-- `p - q`. -/
def sub [Add α] [Neg α] (p q : Extended α) : Extended α := p.add q.neg

end Extended

/-- `exp` and `log` between the numbers and their logarithms. -/
structure ExpLog (K L : Type) [Field K] [LinearOrder K] [AddCommGroup L] where
  exp : L → K
  log : K → L
  exp_pos : ∀ a, 0 < exp a
  exp_add : ∀ a b, exp (a + b) = exp a * exp b
  exp_log : ∀ {q}, 0 < q → exp (log q) = q
  log_exp : ∀ a, log (exp a) = a

/-- The rationals, with the positive ones as their own logarithms. -/
def ratExpLog : ExpLog ℚ (Additive {q : ℚ // 0 < q}) where
  exp a := a.toMul.1
  log q := Additive.ofMul (if h : 0 < q then ⟨q, h⟩ else 1)
  exp_pos a := a.toMul.2
  exp_add _ _ := rfl
  exp_log h := by simp only [dif_pos h, toMul_ofMul]
  log_exp a := by simp only [dif_pos a.toMul.2]; rfl

section Definitions

variable {K L : Type} [Field K] [LinearOrder K] [AddCommGroup L] (iso : ExpLog K L)

namespace ExpLog

/-- `exp`, on all values. -/
def expValue : Extended L → Extended K
  | .nan => .nan
  | .negInf => .fin 0
  | .fin a => .fin (iso.exp a)
  | .posInf => .posInf

/-- `log`, on all values. -/
def logValue : Extended K → Extended L
  | .nan => .nan
  | .negInf => .nan
  | .fin q => if q = 0 then .negInf else if 0 < q then .fin (iso.log q) else .nan
  | .posInf => .posInf

/-- `qvalues[i] += exp(pvalues[pindex])`. -/
def addExp (q : Extended K) (p : Extended L) : Extended K := q.add (iso.expValue p)

/-- The logarithm of a number. -/
def toLog (q : K) : Extended L := iso.logValue (.fin q)

end ExpLog

/-- The arithmetic of the functions with `Log` in their name. -/
def logarithmic : Arith (Extended L) where
  unit := .fin 0
  times p q := p.add q
  ratio new old := new.sub old
  total l := iso.logValue (l.foldl iso.addExp (.fin 0))

namespace Pot

variable {o : VariableOrdering}

/-- `Pot_CreateTabularUnityLog`. -/
def createTabularUnityLog (vbls : VariableSet o) : Pot o (Extended L) :=
  Arithmetic.createTabularUnity (logarithmic iso) vbls

/-- `Pot_ProductTabularLog`. -/
def productTabularLog (p q : Pot o (Extended L)) (mi : Option (MulInd o)) :
    Option (Pot o (Extended L)) := Arithmetic.productTabular (logarithmic iso) p q mi

/-- `Pot_UpdateRatioTabularLog`. -/
def updateRatioTabularLog (newSep oldSep : Pot o (Extended L)) : Option (Pot o (Extended L)) :=
  Arithmetic.updateRatioTabular (logarithmic iso) newSep oldSep

/-- `Pot_SumMarginTabularLog`. -/
def sumMarginTabularLog (p : Pot o (Extended L)) (mi : MulInd o) : Option (Pot o (Extended L)) :=
  Arithmetic.sumMarginTabular (logarithmic iso) p mi

/-- `Pot_SumMarginTabularSingleVblLog`. -/
def sumMarginTabularSingleVblLog (p : Pot o (Extended L)) (v : Variable) :
    Option (List (Extended L)) := Arithmetic.sumMarginTabularSingleVbl (logarithmic iso) p v

end Pot

end Definitions

/-! ## The logarithm as a homomorphism -/

section Hom

variable {K L : Type} [Field K] [LinearOrder K] [IsStrictOrderedRing K] [AddCommGroup L]
variable (iso : ExpLog K L)

namespace ExpLog

omit [IsStrictOrderedRing K] in
theorem exp_zero : iso.exp 0 = 1 := by
  have hpos := iso.exp_pos 0
  have hmul := iso.exp_add 0 0
  rw [add_zero] at hmul
  exact (mul_eq_left₀ hpos.ne').mp hmul.symm

omit [IsStrictOrderedRing K] in
theorem log_mul {p q : K} (hp : 0 < p) (hq : 0 < q) :
    iso.log (p * q) = iso.log p + iso.log q := by
  rw [← iso.log_exp (iso.log p + iso.log q), iso.exp_add, iso.exp_log hp, iso.exp_log hq]

theorem log_div {p q : K} (hp : 0 < p) (hq : 0 < q) :
    iso.log (p / q) = iso.log p + -iso.log q := by
  have hmul := iso.log_mul (div_pos hp hq) hq
  rw [div_mul_cancel₀ p hq.ne'] at hmul
  rw [hmul, add_neg_cancel_right]

omit [IsStrictOrderedRing K] in
@[simp] theorem toLog_zero : iso.toLog 0 = .negInf := if_pos rfl

omit [IsStrictOrderedRing K] in
theorem toLog_of_pos {q : K} (hq : 0 < q) : iso.toLog q = .fin (iso.log q) := by
  show (if q = 0 then Extended.negInf else if 0 < q then .fin (iso.log q) else .nan) = _
  rw [if_neg hq.ne', if_pos hq]

@[simp] theorem toLog_one : iso.toLog 1 = .fin 0 := by
  rw [iso.toLog_of_pos one_pos, ← iso.exp_zero, iso.log_exp]

omit [IsStrictOrderedRing K] in
/-- The logarithm of a probability is a number or `-∞`. -/
theorem toLog_ne_nan {q : K} (hq : 0 ≤ q) : iso.toLog q ≠ .nan := by
  rcases hq.eq_or_lt with rfl | hpos
  · simp
  · simp [iso.toLog_of_pos hpos]

omit [IsStrictOrderedRing K] in
theorem expValue_toLog {q : K} (hq : 0 ≤ q) : iso.expValue (iso.toLog q) = .fin q := by
  rcases hq.eq_or_lt with rfl | hpos
  · rw [toLog_zero]
    rfl
  · rw [iso.toLog_of_pos hpos, expValue, iso.exp_log hpos]

theorem toLog_mul {p q : K} (hp : 0 ≤ p) (hq : 0 ≤ q) :
    iso.toLog (p * q) = (iso.toLog p).add (iso.toLog q) := by
  rcases hp.eq_or_lt with rfl | hp <;> rcases hq.eq_or_lt with rfl | hq
  · rw [zero_mul, toLog_zero]
    rfl
  · rw [zero_mul, toLog_zero, iso.toLog_of_pos hq]
    rfl
  · rw [mul_zero, toLog_zero, iso.toLog_of_pos hp]
    rfl
  · rw [iso.toLog_of_pos hp, iso.toLog_of_pos hq, iso.toLog_of_pos (mul_pos hp hq),
      iso.log_mul hp hq]
    rfl

theorem toLog_div {p q : K} (hp : 0 ≤ p) (hq : 0 < q) :
    iso.toLog (p / q) = (iso.toLog p).sub (iso.toLog q) := by
  rcases hp.eq_or_lt with rfl | hp
  · rw [zero_div, toLog_zero, iso.toLog_of_pos hq]
    rfl
  · rw [iso.toLog_of_pos hp, iso.toLog_of_pos hq, iso.toLog_of_pos (div_pos hp hq),
      iso.log_div hp hq]
    rfl

omit [IsStrictOrderedRing K] in
/-- The loop that sums exponentials. -/
theorem foldl_expValue {l : List K} (hl : ∀ p ∈ l, 0 ≤ p) (c : K) :
    (l.map iso.toLog).foldl iso.addExp (.fin c) = .fin (c + l.sum) := by
  induction l generalizing c with
  | nil => simp
  | cons p l ih =>
      have hstep : iso.addExp (.fin c) (iso.toLog p) = .fin (c + p) := by
        unfold addExp
        rw [iso.expValue_toLog (hl p (List.mem_cons_self ..))]
        rfl
      rw [List.map_cons, List.foldl_cons, hstep,
        ih fun q hq => hl q (List.mem_cons_of_mem _ hq), List.sum_cons, add_assoc]

end ExpLog

/-- **The logarithm carries plain to logarithmic arithmetic**, up to division by zero. -/
theorem homLog : (plain K).Hom (logarithmic iso) iso.toLog (fun q => 0 ≤ q) (fun q => q ≠ 0) where
  valid_unit := zero_le_one
  valid_times := mul_nonneg
  valid_ratio hp hq := by
    rw [plain_ratio]
    exact div_nonneg hp hq
  valid_total hl := by
    rw [plain_total]
    exact List.sum_nonneg hl
  map_unit := iso.toLog_one
  map_times := iso.toLog_mul
  map_ratio hp hq hne := by
    rw [plain_ratio]
    exact iso.toLog_div hp (lt_of_le_of_ne hq hne.symm)
  map_total hl := by
    unfold logarithmic
    rw [plain_total]
    simp only
    rw [iso.foldl_expValue hl, zero_add]
    rfl

end Hom

end JunctionBox
