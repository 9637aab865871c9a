import Mathlib.Logic.Basic

/-!
# Two runs in lockstep

Two computations that may fail, each with a value of its own for what it leaves
when it fails.  They are in lockstep when they fail together and end together,
in related values.  The relation passes through `>>=` and through loops.
-/

namespace JunctionBox

/-- Both fail, with values related by `err`, or both end, with values related by `ok`. -/
inductive Lockstep {ε δ α β : Type*} (err : ε → δ → Prop) (ok : α → β → Prop) :
    Except ε α → Except δ β → Prop where
  | error {e : ε} {d : δ} (h : err e d) : Lockstep err ok (.error e) (.error d)
  | ok {a : α} {b : β} (h : ok a b) : Lockstep err ok (.ok a) (.ok b)

namespace Lockstep

variable {ε δ α β γ κ : Type} {err : ε → δ → Prop}

theorem bind {ok : α → β → Prop} {next : γ → κ → Prop} {a : Except ε α} {b : Except δ β}
    (h : Lockstep err ok a b) {f : α → Except ε γ} {g : β → Except δ κ}
    (hnext : ∀ x y, ok x y → Lockstep err next (f x) (g y)) :
    Lockstep err next (a >>= f) (b >>= g) := by
  cases h with
  | error h => exact Lockstep.error h
  | ok h => exact hnext _ _ h

/-- Two loops over one list. -/
theorem foldlM {τ : Type} {ok : α → β → Prop} {f : α → τ → Except ε α} {g : β → τ → Except δ β}
    (hstep : ∀ x y t, ok x y → Lockstep err ok (f x t) (g y t)) (l : List τ) {x : α} {y : β}
    (h : ok x y) : Lockstep err ok (l.foldlM f x) (l.foldlM g y) := by
  induction l generalizing x y with
  | nil => exact Lockstep.ok h
  | cons t l ih =>
      rw [List.foldlM_cons, List.foldlM_cons]
      exact (hstep x y t h).bind fun x' y' h' => ih h'

/-- The end of the first computation, when the second ends. -/
theorem exists_ok {ok : α → β → Prop} {a : Except ε α} {b : β}
    (h : Lockstep err ok a (.ok b)) : ∃ x, a = .ok x ∧ ok x b := by
  cases h with
  | ok h => exact ⟨_, rfl, h⟩

/-- What can be seen of both ends alike. -/
theorem toOption_map {ok : α → β → Prop} {a : Except ε α} {b : Except δ β}
    (h : Lockstep err ok a b) {f : α → γ} {g : β → γ} (hok : ∀ x y, ok x y → f x = g y) :
    a.toOption.map f = b.toOption.map g := by
  cases h with
  | error h => rfl
  | ok h => exact congrArg some (hok _ _ h)

/-! ## Computations that fail without a value -/

theorem rel_bind {r : α → β → Prop} {s : γ → κ → Prop} {a : Option α} {b : Option β}
    (h : Option.Rel r a b) {f : α → Option γ} {g : β → Option κ}
    (hnext : ∀ x y, r x y → Option.Rel s (f x) (g y)) : Option.Rel s (a.bind f) (b.bind g) := by
  cases h with
  | none => exact Option.Rel.none
  | some h => exact hnext _ _ h

/-- Two loops over one list. -/
theorem rel_foldlM {τ : Type} {r : α → β → Prop} {f : α → τ → Option α} {g : β → τ → Option β}
    {l : List τ} (hstep : ∀ x y, ∀ t ∈ l, r x y → Option.Rel r (f x t) (g y t)) {x : α} {y : β}
    (h : r x y) : Option.Rel r (l.foldlM f x) (l.foldlM g y) := by
  induction l generalizing x y with
  | nil => exact Option.Rel.some h
  | cons t l ih =>
      rw [List.foldlM_cons, List.foldlM_cons]
      refine rel_bind (hstep x y t (List.mem_cons_self ..) h) fun x' y' h' => ?_
      exact ih (fun x y t' ht' => hstep x y t' (List.mem_cons_of_mem _ ht')) h'

theorem rel_isSome {r : α → β → Prop} {a : Option α} {b : Option β} (h : Option.Rel r a b) :
    a.isSome = b.isSome := by
  cases h with
  | none => rfl
  | some h => rfl

/-- The end of the second computation, when the first ends. -/
theorem rel_some {r : α → β → Prop} {x : α} {b : Option β} (h : Option.Rel r (some x) b) :
    ∃ y, b = some y ∧ r x y := by
  cases h with
  | some h => exact ⟨_, rfl, h⟩

end Lockstep

end JunctionBox
