import Mathlib.Data.Finset.Basic
import JunctionBox.Foundations.PartialLoops

/-!
# Borrowed blocks

Every slot of some structure shares a block with an owner outside of it.
`borrow` points all slots at their owners' blocks, `replace` frees the block a
slot points at and gives the slot one of its own, `use` reads what slots point
at, and `visit` reads owners' blocks.

The ledger of a run says whose blocks have been freed and which slots dangle.
Both can be read off the order of the operations (`run_records`): an owner has
lost its block once its slot has been replaced, and the slot dangles once the
owners' blocks have been borrowed after that.  So a run touches no dead block if
and only if each of its operations is admitted by the operations before it
(`isSome_run_iff`).
-/

namespace JunctionBox.Borrowing

variable {ι : Type}

/-- What is done to the slots. -/
inductive Act (ι : Type) where
  | borrow
  | replace (i : ι)
  | use (is : List ι)
  | visit (is : List ι)

/-! ## What the order of the operations says -/

/-- After these operations the slot points at a live block. -/
def UsableAfter (before : List (Act ι)) (i : ι) : Prop :=
  .borrow ∈ before ∧ ¬ [.replace i, .borrow].Sublist before

/-- The operation touches no dead block after these. -/
def Admitted (before : List (Act ι)) : Act ι → Prop
  | .borrow => True
  | .replace i => UsableAfter before i
  | .use is => ∀ i ∈ is, UsableAfter before i
  | .visit is => ∀ i ∈ is, .replace i ∉ before

/-- Every operation is admitted by those before it. -/
def Lawful (acts : List (Act ι)) : Prop :=
  ∀ before a after, acts = before ++ a :: after → Admitted before a

theorem lawful_nil : Lawful ([] : List (Act ι)) := fun before a after heq => by
  simp at heq

theorem lawful_concat {acts : List (Act ι)} {a : Act ι} :
    Lawful (acts ++ [a]) ↔ Lawful acts ∧ Admitted acts a := by
  constructor
  · intro h
    refine ⟨fun before b after heq => h before b (after ++ [a]) ?_, h acts a [] rfl⟩
    rw [heq, List.append_assoc, List.cons_append]
  · rintro ⟨h, ha⟩ before b after heq
    rcases List.eq_nil_or_concat after with rfl | ⟨after, c, rfl⟩
    · obtain ⟨rfl, hlast⟩ := List.append_inj' heq rfl
      obtain rfl := List.singleton_inj.mp hlast
      exact ha
    · rw [List.concat_eq_append, ← List.cons_append, ← List.append_assoc] at heq
      exact h before b after (List.append_inj' heq rfl).1

theorem pair_sublist_concat {α : Type} {x y a : α} {l : List α} :
    [x, y].Sublist (l ++ [a]) ↔ [x, y].Sublist l ∨ y = a ∧ x ∈ l := by
  rw [← List.reverse_sublist, List.reverse_append, List.reverse_singleton, List.singleton_append,
    List.sublist_cons_iff]
  constructor
  · rintro (h | ⟨r, hr, hsub⟩)
    · exact Or.inl (List.reverse_sublist.mp h)
    · obtain ⟨rfl, rfl⟩ := List.cons.inj hr
      exact Or.inr ⟨rfl, List.mem_reverse.mp (List.singleton_sublist.mp hsub)⟩
  · rintro (h | ⟨rfl, hx⟩)
    · exact Or.inl (List.reverse_sublist.mpr h)
    · exact Or.inr ⟨[x], rfl, List.singleton_sublist.mpr (List.mem_reverse.mpr hx)⟩

/-! ## The ledger -/

/-- Whether the slots have been set, whose blocks are dead, and who points at a dead block. -/
structure Ledger (ι : Type) where
  borrowed : Bool
  freed : Finset ι
  dangling : Finset ι

/-- The ledger says what the operations have done. -/
structure Records (s : Ledger ι) (before : List (Act ι)) : Prop where
  borrowed : s.borrowed = true ↔ .borrow ∈ before
  freed : ∀ i, i ∈ s.freed ↔ .replace i ∈ before
  dangling : ∀ i, i ∈ s.dangling ↔ [.replace i, .borrow].Sublist before

namespace Ledger

/-- No slot has been set, and all owners have their blocks. -/
def start (ι : Type) : Ledger ι := ⟨false, ∅, ∅⟩

/-- The slot points at a live block. -/
def Usable (s : Ledger ι) (i : ι) : Prop := s.borrowed = true ∧ i ∉ s.dangling

end Ledger

theorem records_start : Records (Ledger.start ι) [] where
  borrowed := by simp [Ledger.start]
  freed _ := by simp [Ledger.start]
  dangling _ := by simp [Ledger.start]

theorem Records.usable {s : Ledger ι} {before : List (Act ι)} (h : Records s before) (i : ι) :
    s.Usable i ↔ UsableAfter before i := by
  rw [Ledger.Usable, UsableAfter, h.borrowed, h.dangling]

/-- Operations that only read leave no trace. -/
theorem Records.read {s : Ledger ι} {before : List (Act ι)} {a : Act ι} (h : Records s before)
    (hborrow : .borrow ≠ a) (hreplace : ∀ i, .replace i ≠ a) : Records s (before ++ [a]) where
  borrowed := by simpa [hborrow] using h.borrowed
  freed i := by simpa [hreplace i] using h.freed i
  dangling i := by
    rw [h.dangling, pair_sublist_concat]
    exact ⟨Or.inl, fun hsub => hsub.resolve_right fun hlast => hborrow hlast.1⟩

variable [DecidableEq ι]

namespace Ledger

instance (s : Ledger ι) (i : ι) : Decidable (s.Usable i) := inferInstanceAs (Decidable (_ ∧ _))

/-- One operation, if it touches no dead block. -/
def step (s : Ledger ι) : Act ι → Option (Ledger ι)
  | .borrow => some ⟨true, s.freed, s.freed⟩
  | .replace i => if s.Usable i then some { s with freed := insert i s.freed } else none
  | .use is => if ∀ i ∈ is, s.Usable i then some s else none
  | .visit is => if ∀ i ∈ is, i ∉ s.freed then some s else none

/-- A sequence of operations. -/
def run (s : Ledger ι) (acts : List (Act ι)) : Option (Ledger ι) := acts.foldlM step s

theorem run_concat (s : Ledger ι) (acts : List (Act ι)) (a : Act ι) :
    s.run (acts ++ [a]) = (s.run acts).bind fun s' => s'.step a := by
  rw [run, PartialLoops.foldlM_append, run]
  congr 1
  funext s'
  exact bind_pure (s'.step a)

end Ledger

/-- The ledger allows exactly what the operations so far admit. -/
theorem Records.step_isSome {s : Ledger ι} {before : List (Act ι)} (h : Records s before)
    (a : Act ι) : (s.step a).isSome ↔ Admitted before a := by
  cases a with
  | borrow => simp [Ledger.step, Admitted]
  | replace i =>
      rw [Admitted, ← h.usable, Ledger.step]
      split <;> simp [*]
  | use is =>
      simp only [Admitted, ← h.usable, Ledger.step]
      split
      · next husable => exact iff_of_true rfl husable
      · next hdead => exact iff_of_false Bool.false_ne_true hdead
  | visit is =>
      simp only [Admitted, ← h.freed, Ledger.step]
      split
      · next hlive => exact iff_of_true rfl hlive
      · next hdead => exact iff_of_false Bool.false_ne_true hdead

/-- One more operation, entered in the ledger. -/
theorem Records.step {s s' : Ledger ι} {before : List (Act ι)} {a : Act ι} (h : Records s before)
    (hrun : s.step a = some s') : Records s' (before ++ [a]) := by
  cases a with
  | borrow =>
      obtain rfl := Option.some.inj hrun
      refine ⟨by simp, fun i => ?_, fun i => ?_⟩
      · simp [h.freed]
      · rw [pair_sublist_concat, h.freed]
        constructor
        · exact fun hi => Or.inr ⟨rfl, hi⟩
        · rintro (hsub | ⟨-, hi⟩)
          · exact hsub.subset (List.mem_cons_self ..)
          · exact hi
  | replace j =>
      simp only [Ledger.step] at hrun
      split at hrun
      · obtain rfl := Option.some.inj hrun
        refine ⟨?_, fun i => ?_, fun i => ?_⟩
        · simpa using h.borrowed
        · rw [Finset.mem_insert, h.freed, List.mem_append, List.mem_singleton, Act.replace.injEq,
            or_comm]
        · rw [h.dangling, pair_sublist_concat]
          simp
      · cases hrun
  | use is =>
      simp only [Ledger.step] at hrun
      split at hrun
      · obtain rfl := Option.some.inj hrun
        exact h.read nofun nofun
      · cases hrun
  | visit is =>
      simp only [Ledger.step] at hrun
      split at hrun
      · obtain rfl := Option.some.inj hrun
        exact h.read nofun nofun
      · cases hrun

/-- The ledger of a run can be read off its operations. -/
theorem run_records {acts : List (Act ι)} {s : Ledger ι}
    (hrun : (Ledger.start ι).run acts = some s) : Records s acts := by
  induction acts using List.reverseRecOn generalizing s with
  | nil =>
      obtain rfl := Option.some.inj hrun
      exact records_start
  | append_singleton acts a ih =>
      rw [Ledger.run_concat, Option.bind_eq_some_iff] at hrun
      obtain ⟨s₁, hrun₁, hstep⟩ := hrun
      exact (ih hrun₁).step hstep

/-- A run touches no dead block if and only if every operation is admitted by those before
it. -/
theorem isSome_run_iff (acts : List (Act ι)) :
    ((Ledger.start ι).run acts).isSome ↔ Lawful acts := by
  induction acts using List.reverseRecOn with
  | nil => exact iff_of_true rfl lawful_nil
  | append_singleton acts a ih =>
      rw [lawful_concat, ← ih, Ledger.run_concat]
      cases hrun : (Ledger.start ι).run acts with
      | none => simp
      | some s => simpa using (run_records hrun).step_isSome a

end JunctionBox.Borrowing
