import Mathlib.Combinatorics.SimpleGraph.Basic

/-!
# Eliminating the vertices of a graph

Eliminating a vertex joins its neighbours among the vertices still to come.  The
edges that eliminating a whole list of vertices adds are the fill-in of the
list.  A list is perfect for a graph when the neighbours of each vertex among
the vertices still to come are joined already.

Filling a graph in makes the list perfect (`perfect_fillIn`), and adds nothing
when it was perfect before, but only then (`fillIn_eq_self_iff`).
-/

namespace JunctionBox.FillIn

variable {V : Type*}

/-- The neighbours of `v` among `rest` joined with each other. -/
def joinNeighbors (G : SimpleGraph V) (v : V) (rest : List V) : SimpleGraph V where
  Adj a b := G.Adj a b ∨ (a ≠ b ∧ (a ∈ rest ∧ G.Adj v a) ∧ (b ∈ rest ∧ G.Adj v b))
  symm := ⟨fun _ _ h => h.imp (fun h => h.symm) fun h => ⟨h.1.symm, h.2.2, h.2.1⟩⟩
  loopless := ⟨fun a h => h.elim (fun h => G.loopless.irrefl a h) fun h => h.1 rfl⟩

/-- The graph with the fill-in of eliminating the vertices of a list in turn. -/
def fillIn (G : SimpleGraph V) : List V → SimpleGraph V
  | [] => G
  | v :: rest => fillIn (joinNeighbors G v rest) rest

/-- The neighbours of each vertex among the later ones are pairwise adjacent. -/
def Perfect (G : SimpleGraph V) : List V → Prop
  | [] => True
  | v :: rest => (∀ a ∈ rest, ∀ b ∈ rest, G.Adj v a → G.Adj v b → a ≠ b → G.Adj a b) ∧
      Perfect G rest

instance Perfect.decidable [DecidableEq V] (G : SimpleGraph V) [DecidableRel G.Adj] :
    (l : List V) → Decidable (Perfect G l)
  | [] => .isTrue trivial
  | _ :: rest =>
      have := Perfect.decidable G rest
      inferInstanceAs (Decidable (_ ∧ _))

variable {G : SimpleGraph V}

theorem le_joinNeighbors (v : V) (rest : List V) : G ≤ joinNeighbors G v rest :=
  fun _ _ h => Or.inl h

theorem le_fillIn (l : List V) : G ≤ fillIn G l := by
  induction l generalizing G with
  | nil => exact le_refl G
  | cons v rest ih => exact (le_joinNeighbors v rest).trans ih

theorem joinNeighbors_eq_self_iff {v : V} {rest : List V} :
    joinNeighbors G v rest = G ↔
      ∀ a ∈ rest, ∀ b ∈ rest, G.Adj v a → G.Adj v b → a ≠ b → G.Adj a b := by
  constructor
  · intro h a ha b hb hva hvb hab
    rw [← h]
    exact Or.inr ⟨hab, ⟨ha, hva⟩, hb, hvb⟩
  · intro h
    refine le_antisymm (fun a b hab => ?_) (le_joinNeighbors v rest)
    rcases hab with hab | ⟨hne, ⟨ha, hva⟩, hb, hvb⟩
    · exact hab
    · exact h a ha b hb hva hvb hne

/-- Nothing is filled in if and only if the list is perfect. -/
theorem fillIn_eq_self_iff {l : List V} : fillIn G l = G ↔ Perfect G l := by
  induction l generalizing G with
  | nil => exact iff_of_true rfl trivial
  | cons v rest ih =>
      unfold fillIn Perfect
      constructor
      · intro h
        have hle : joinNeighbors G v rest ≤ G := by
          have hfill := le_fillIn (G := joinNeighbors G v rest) rest
          rwa [h] at hfill
        have hjoin := le_antisymm hle (le_joinNeighbors v rest)
        rw [hjoin] at h
        exact ⟨joinNeighbors_eq_self_iff.mp hjoin, ih.mp h⟩
      · rintro ⟨hv, hrest⟩
        rw [joinNeighbors_eq_self_iff.mpr hv]
        exact ih.mpr hrest

/-- Eliminating other vertices joins nothing to a vertex. -/
theorem adj_fillIn_of_notMem {l : List V} {v : V} (hv : v ∉ l) {a : V} :
    (fillIn G l).Adj v a ↔ G.Adj v a := by
  induction l generalizing G with
  | nil => exact Iff.rfl
  | cons w rest ih =>
      have hrest : v ∉ rest := fun h => hv (List.mem_cons_of_mem w h)
      unfold fillIn
      rw [ih hrest]
      exact ⟨fun h => h.resolve_right fun hnew => hrest hnew.2.1.1, Or.inl⟩

/-- The list is perfect for the graph it has filled in. -/
theorem perfect_fillIn {l : List V} (hl : l.Nodup) : Perfect (fillIn G l) l := by
  induction l generalizing G with
  | nil => trivial
  | cons v rest ih =>
      obtain ⟨hv, hrest⟩ := List.nodup_cons.mp hl
      unfold fillIn Perfect
      refine ⟨fun a ha b hb hva hvb hab => ?_, ih hrest⟩
      rw [adj_fillIn_of_notMem hv] at hva hvb
      -- no neighbour of `v` is new
      have hold : ∀ {c : V}, (joinNeighbors G v rest).Adj v c → G.Adj v c := fun h =>
        h.resolve_right fun hnew => hv hnew.2.1.1
      exact le_fillIn rest (Or.inr ⟨hab, ⟨ha, hold hva⟩, hb, hold hvb⟩)

theorem perfect_iff {l : List V} : Perfect G l ↔ ∀ before v rest, l = before ++ v :: rest →
    ∀ a ∈ rest, ∀ b ∈ rest, G.Adj v a → G.Adj v b → a ≠ b → G.Adj a b := by
  induction l with
  | nil => exact iff_of_true trivial fun before v rest h => absurd h (by simp)
  | cons w l ih =>
      unfold Perfect
      rw [ih]
      constructor
      · rintro ⟨hw, hl⟩ before v rest heq
        cases before with
        | nil =>
            obtain ⟨rfl, rfl⟩ := List.cons.inj heq
            exact hw
        | cons w' before =>
            obtain ⟨rfl, rfl⟩ := List.cons.inj heq
            exact hl before v rest rfl
      · intro h
        exact ⟨h [] w l rfl, fun before v rest heq => h (w :: before) v rest (by rw [heq]; rfl)⟩

end JunctionBox.FillIn
