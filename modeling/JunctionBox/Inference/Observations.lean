import JunctionBox.Inference.LogRun

/-!
# Observations as indicators

An observation is entered by multiplying its potential into a clique that
contains the variable, through the clique's memo.  For a legal value this keeps
the entries with that value and erases the others (`indicates_of_createWith`),
in the log domain as well.

The test that rejects illegal values lets one through, the cardinality of the
variable; what is then entered marks no entry at all (`legalIndicator_iff`).
-/

namespace JunctionBox.Observation

variable {o : VariableOrdering} {α : Type}

/-- Multiplied into any clique potential that contains the variable of rank `i`, through the
clique's memo, the observation keeps the entries whose variable has the value and makes
every other entry `zero`.  The clique's entries are `valid`, and there are some: every variable
of the clique has a value. -/
def Indicates (A : Arith α) (zero : α) (valid : α → Prop) (this : Observation o α) (i : ℕ)
    (value : ℤ) : Prop :=
  ∀ (q : Pot o α) (memo : MulMemo o (Option (MulInd o))), q.Sized → (∀ a ∈ q.tabData, valid a) →
    i ∈ q.vbls.vars → q.vbls.getCardinality ≠ 0 →
    MulMemo.Consistent q.vbls.computeMargInd memo →
      ∃ mi memo' r, MulMemo.getMargInd memo q.vbls this.pot.vbls = some (mi, memo') ∧
        Pot.Arithmetic.productTabular A this.pot q mi = some r ∧ r.vbls = q.vbls ∧ r.Sized ∧
        ∀ x, q.vbls.InRange x →
          r.entry x = if (x i : ℤ) = value then q.entry x else some zero

theorem indicates_of_createWith {A : Arith α} {hit miss zero : α} {valid : α → Prop}
    (hhit : ∀ a, valid a → A.times hit a = a) (hmiss : ∀ a, valid a → A.times miss a = zero)
    {vset : VariableSet o} {i : ℕ} (hvars : vset.vars = {i}) {value : ℤ} {ob : Observation o α}
    (h : createWith hit miss vset value = some ob) : ob.Indicates A zero valid i value := by
  intro q memo hq hvalid hmem hcard hmemo
  obtain ⟨hvbls, hrep⟩ := represents_createWith hvars h
  have hpotvars : ob.pot.vbls.vars = {i} := by rw [hvbls, hvars]
  have hentry : ∀ x, q.vbls.InRange x → ∃ a ∈ q.tabData, q.entry x = some a := by
    intro x hx
    have hlt : q.vbls.index x < q.tabData.length := hq.length_tabData ▸ VariableSet.index_lt hx
    exact ⟨_, List.getElem_mem hlt, List.getElem?_eq_getElem hlt⟩
  have hqrep : q.Represents fun x => (q.entry x).getD zero := by
    refine ⟨hq, fun x hx => ?_⟩
    obtain ⟨a, -, ha⟩ := hentry x hx
    rw [ha, Option.getD_some]
  obtain ⟨mi, memo', r, hget, -, hrun, hr, hproduct⟩ :=
    Pot.Arithmetic.productTabular_getMargInd A hrep hqrep hmemo
      (hpotvars ▸ Finset.singleton_nonempty i) (hpotvars ▸ Finset.singleton_subset_iff.mpr hmem)
      fun hzero => absurd hzero hcard
  refine ⟨mi, memo', r, hget, hrun, hr, hproduct.sized, fun x hx => ?_⟩
  obtain ⟨a, hmem, ha⟩ := hentry x hx
  rw [hproduct.entry_eq x (hr ▸ hx), ha, Option.getD_some]
  split
  · rw [hhit a (hvalid a hmem)]
  · rw [hmiss a (hvalid a hmem)]

/-! ## The two constructors -/

section Log

variable {K L : Type} [Field K] [LinearOrder K] [IsStrictOrderedRing K] [AddCommGroup L]
variable (iso : ExpLog K L)

/-- `Observation_Create` returns `NULL` exactly for the illegal values of the variable of rank
`i`, and an indicator for the others. -/
def LegalIndicator (K : Type) [Field K] [DecidableEq K] (vset : VariableSet o) (i : ℕ)
    (value : ℤ) : Prop :=
  ((create vset value : Option (Observation o K)) = none ↔
      ¬(0 ≤ value ∧ value < (o.vbl i).cardinality)) ∧
    ∀ ob : Observation o K, create vset value = some ob →
      ob.Indicates (plain K) 0 (fun _ => True) i value

/-- The logarithms of the numbers that are not negative. -/
def IsLog (a : Extended L) : Prop := a = .negInf ∨ ∃ l, a = .fin l

/-- The same of `Observation_CreateLog` and log potentials. -/
def LegalIndicatorLog (vset : VariableSet o) (i : ℕ) (value : ℤ) : Prop :=
  (createLog iso vset value = none ↔ ¬(0 ≤ value ∧ value < (o.vbl i).cardinality)) ∧
    ∀ ob, createLog iso vset value = some ob →
      ob.Indicates (logarithmic iso) .negInf IsLog i value

theorem legal_iff_of_ne {n : ℕ} {value : ℤ} (hne : value ≠ n) :
    value > n ∨ value < 0 ↔ ¬(0 ≤ value ∧ value < n) := by
  omega

/-- **An accepted observation is an indicator of a legal value** unless the value is the
cardinality. -/
theorem legalIndicator_iff {vset : VariableSet o} {i : ℕ} (hvars : vset.vars = {i})
    (value : ℤ) :
    LegalIndicator K vset i value ∧ LegalIndicatorLog iso vset i value ↔
      value ≠ (o.vbl i).cardinality := by
  constructor
  · rintro ⟨⟨hnull, -⟩, -⟩ rfl
    rw [create, createWith_eq_none_iff hvars] at hnull
    omega
  · intro hne
    refine ⟨⟨?_, fun ob hob => indicates_of_createWith ?_ ?_ hvars hob⟩, ?_,
      fun ob hob => indicates_of_createWith ?_ ?_ hvars hob⟩
    · rw [create, createWith_eq_none_iff hvars, legal_iff_of_ne hne]
    · exact fun a _ => one_mul a
    · exact fun a _ => zero_mul a
    · rw [createLog, createWith_eq_none_iff hvars, legal_iff_of_ne hne]
    · rintro _ (rfl | ⟨l, rfl⟩)
      · rw [iso.toLog_one]
        rfl
      · rw [iso.toLog_one]
        show Extended.fin (0 + l) = _
        rw [zero_add]
    · rintro _ (rfl | ⟨l, rfl⟩)
      · rw [iso.toLog_zero]
        rfl
      · rw [iso.toLog_zero]
        rfl

end Log

theorem legalIndicator_ab :
    VariableSet.abFirst.vars = {0} ∧ LegalIndicator ℚ VariableSet.abFirst 0 1 ∧
      LegalIndicatorLog ratExpLog VariableSet.abFirst 0 1 := by
  have hvars : VariableSet.abFirst.vars = {0} := by decide
  exact ⟨hvars, (legalIndicator_iff ratExpLog hvars 1).mpr (by decide)⟩

/-- The value `2` of a variable with the values `0` and `1` is accepted. -/
theorem not_legalIndicator_ab : ¬LegalIndicator ℚ VariableSet.abFirst 0 2 := by
  rintro ⟨hnull, -⟩
  have haccepted : ((create VariableSet.abFirst 2 :
      Option (Observation VariableSet.abOrdering ℚ)).map fun ob => ob.pot.tabData) =
        some [0, 0] := by decide +kernel
  have hillegal : ¬(0 ≤ (2 : ℤ) ∧ (2 : ℤ) < (VariableSet.abOrdering.vbl 0).cardinality) := by
    decide
  rw [hnull.mpr hillegal] at haccepted
  exact absurd haccepted (by simp)

end JunctionBox.Observation
