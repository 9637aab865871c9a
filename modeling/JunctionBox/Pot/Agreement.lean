import JunctionBox.Pot.Log

/-!
# Logarithms that may be undefined

`homLog` needs its divisors to differ from zero.  Here they may be zero, as long
as they do not divide anything else: what the log arithmetic computes is then the
logarithm of what the plain one computes, or NaN (`Agrees.times`, `Agrees.ratio`,
`Agrees.total`).  It is NaN after every division by zero, and no product gets rid
of a NaN.
-/

namespace JunctionBox

namespace Extended

variable {α : Type} [Add α] [Neg α]

omit [Neg α] in
@[simp] theorem nan_add (p : Extended α) : nan.add p = nan := by cases p <;> rfl

omit [Neg α] in
@[simp] theorem add_nan (p : Extended α) : p.add nan = nan := by cases p <;> rfl

@[simp] theorem nan_sub (p : Extended α) : nan.sub p = nan := nan_add _

@[simp] theorem sub_nan (p : Extended α) : p.sub nan = nan := add_nan p

end Extended

namespace ExpLog

variable {K L : Type} [Field K] [LinearOrder K] [IsStrictOrderedRing K] [AddCommGroup L]
variable (iso : ExpLog K L)

/-- `p` is the logarithm of `q`, or it is undefined. -/
def Agrees (q : K) (p : Extended L) : Prop := p = .nan ∨ p = iso.toLog q

variable {iso} {q q' : K} {p p' : Extended L}

omit [IsStrictOrderedRing K] in
theorem agrees_toLog (q : K) : iso.Agrees q (iso.toLog q) := Or.inr rfl

omit [IsStrictOrderedRing K] in
theorem Agrees.eq (h : iso.Agrees q p) (hne : p ≠ .nan) : p = iso.toLog q := h.resolve_left hne

theorem Agrees.times (h : iso.Agrees q p) (h' : iso.Agrees q' p') (hq : 0 ≤ q) (hq' : 0 ≤ q') :
    iso.Agrees (q * q') (p.add p') := by
  rcases h with rfl | rfl
  · exact Or.inl (Extended.nan_add p')
  · rcases h' with rfl | rfl
    · exact Or.inl (Extended.add_nan _)
    · exact Or.inr (iso.toLog_mul hq hq').symm

/-- Zero divides nothing but zero. -/
theorem Agrees.ratio (h : iso.Agrees q p) (h' : iso.Agrees q' p') (hq : 0 ≤ q) (hq' : 0 ≤ q')
    (hzero : q' = 0 → q = 0) :
    iso.Agrees (q / q') (p.sub p') ∧ (q' = 0 → p.sub p' = .nan) := by
  rcases h with rfl | rfl
  · exact ⟨Or.inl (Extended.nan_sub p'), fun _ => Extended.nan_sub p'⟩
  rcases h' with rfl | rfl
  · exact ⟨Or.inl (Extended.sub_nan _), fun _ => Extended.sub_nan _⟩
  by_cases hne : q' = 0
  · have hnan : (iso.toLog q).sub (iso.toLog q') = .nan := by
      rw [hne, hzero hne, toLog_zero]
      rfl
    exact ⟨Or.inl hnan, fun _ => hnan⟩
  · exact ⟨Or.inr (iso.toLog_div hq (lt_of_le_of_ne hq' (Ne.symm hne))).symm,
      fun heq => absurd heq hne⟩

omit [IsStrictOrderedRing K] in
/-- The loop that sums exponentials. -/
theorem foldl_addExp_nan (l : List (Extended L)) : l.foldl iso.addExp .nan = .nan := by
  induction l with
  | nil => rfl
  | cons p l ih => rw [List.foldl_cons, addExp, Extended.nan_add, ih]

omit [IsStrictOrderedRing K] in
theorem foldl_addExp {τ : Type} {f : τ → K} {g : τ → Extended L} {l : List τ}
    (h : ∀ d ∈ l, iso.Agrees (f d) (g d)) (hf : ∀ d ∈ l, 0 ≤ f d) (c : K) :
    (l.map g).foldl iso.addExp (.fin c) = .nan ∨
      (l.map g).foldl iso.addExp (.fin c) = .fin (c + (l.map f).sum) := by
  induction l generalizing c with
  | nil => simp
  | cons d l ih =>
      rw [List.map_cons, List.foldl_cons]
      rcases h d (List.mem_cons_self ..) with hd | hd
      · left
        rw [hd, addExp, expValue, Extended.add_nan, foldl_addExp_nan]
      · have hstep : iso.addExp (.fin c) (g d) = .fin (c + f d) := by
          rw [hd, addExp, iso.expValue_toLog (hf d (List.mem_cons_self ..))]
          rfl
        rw [hstep, List.map_cons, List.sum_cons, ← add_assoc]
        exact ih (fun d' hd' => h d' (List.mem_cons_of_mem _ hd'))
          (fun d' hd' => hf d' (List.mem_cons_of_mem _ hd')) _

omit [IsStrictOrderedRing K] in
theorem Agrees.total {τ : Type} {f : τ → K} {g : τ → Extended L} {l : List τ}
    (h : ∀ d ∈ l, iso.Agrees (f d) (g d)) (hf : ∀ d ∈ l, 0 ≤ f d) :
    iso.Agrees (l.map f).sum ((logarithmic iso).total (l.map g)) := by
  unfold logarithmic
  rcases foldl_addExp h hf 0 with hnan | hsum
  · left
    simp only
    rw [hnan]
    rfl
  · right
    simp only
    rw [hsum, zero_add]
    rfl

end ExpLog

end JunctionBox
