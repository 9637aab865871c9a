import JunctionBox.Foundations.HeaviestTree
import JunctionBox.JunctionTree.ElimTree

/-!
# The weight of an elimination tree

`ElimTree_Create` is Kruskal's algorithm: it takes the pairs of cliques with the
largest separators first, and stops at one edge less than there are cliques.
Among the spanning trees of the cliques the result has the largest sum of
separator sizes (`create_maximumWeight`).

`Extends` is the invariant of the second loop: every spanning tree can be
traded for one that is at least as heavy and contains the edges chosen so far.
-/

namespace JunctionBox.ElimTree

open Hypertree

variable {o : VariableOrdering}

/-- The sum of the separator sizes of a tree on the vertices of `this`, if every edge carries
the intersection of its ends. -/
noncomputable def weightOf (this : ElimTree o) (T : SimpleGraph CString) : ℕ :=
  weight this.graph.labels.toFinset (interSize this.clique) T

/-- There are `numEdges` edges, and every spanning tree can be traded for one that is at least
as heavy and contains them. -/
structure Extends (start : ElimTree o) (g : Graph) (numEdges : ℕ) : Prop where
  length : g.edgeList.length = numEdges
  extend : ∀ T, IsTreeOn {l | l ∈ start.graph.labels} T →
    ∃ T', IsTreeOn {l | l ∈ start.graph.labels} T' ∧ start.weightOf T ≤ start.weightOf T' ∧
      g.skeleton ≤ T'

end JunctionBox.ElimTree
